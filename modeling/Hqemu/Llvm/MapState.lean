import Hqemu.Llvm.Allocas

/-! `MapState` on one block: a mapped block does to CPUState and the allocas what deferred
write-back does. -/
namespace Hqemu.Llvm.MapState
open Function List StateIr Allocas
open Deferred (Split Post)

inductive Cache
  | clean
  | dirty
deriving DecidableEq, Repr

abbrev StateMap := Nat → Option Cache

def deadUse (ctx : Context) (curr : StateMap) (callee : String) (args : List Nat) (s : Nat) :
    Bool :=
  match ctx.helperFuncs callee with
  | none => (curr s).isSome
  | some h =>
    if h.hasNestedCall then (curr s).isSome
    else (curr s).isSome && (h.stateDef.contains s || (h.mayConflictArg && args.contains s))

def deadDef (ctx : Context) (curr : StateMap) (callee : String) (args : List Nat) (s : Nat) :
    Bool :=
  match ctx.helperFuncs callee with
  | none => curr s == some .dirty
  | some h =>
    if h.hasNestedCall then curr s == some .dirty
    else (curr s == some .dirty && h.stateUse.contains s) ||
      ((curr s).isSome && (h.mayConflictArg && args.contains s))

variable {ctx : Context}

def writeBack (F : IrFunction ctx) (curr : StateMap) (callee : String) (args : List Nat) : List
    Nat :=
  (states F).filter (deadDef ctx curr callee args)

def afterCall (ctx : Context) (curr : StateMap) (callee : String) (args : List Nat) : StateMap :=
  fun s => if deadDef ctx curr callee args s || deadUse ctx curr callee args s then none
    else curr s

def mapOp (F : IrFunction ctx) (curr : StateMap) (op : Op) : List Inst × StateMap :=
  match op with
  | .load a =>
    if (curr a.state).isNone then
      ([.copyIn a.state,.load a],Function.update curr a.state (some .clean))
    else ([.load a],curr)
  | .store a =>
    (if !(stateInfo F a.state).isAligned && (curr a.state).isNone then
      [.copyIn a.state,.store a] else [.store a],
      Function.update curr a.state (some .dirty))
  | .call callee args =>
    ((writeBack F curr callee args).map .copyOut ++ [.keep (.call callee args)],
      afterCall ctx curr callee args)

def mapOps (F : IrFunction ctx) : List Op → StateMap → List Inst × StateMap
  | [], curr => ([],curr)
  | op :: ops, curr =>
    let r := mapOp F curr op
    let rest := mapOps F ops r.2
    (r.1 ++ rest.1,rest.2)

def outState (F : IrFunction ctx) (b : Nat) (st : StateMap) : StateMap :=
  (mapOps F (F.block b).body st).2

def exitDef (F : IrFunction ctx) (curr : StateMap) : List Nat :=
  (states F).filter fun s => curr s == some .dirty && !ctx.scratch s

def leafCode (F : IrFunction ctx) (b : Nat) (st : StateMap) : List Inst :=
  let r := mapOps F (F.block b).ops st
  let exits := (exitDef F (outState F b st)).map Inst.copyOut
  match (F.block b).exitCall with
  | none => r.1 ++ exits
  | some (callee,args) =>
    r.1 ++ ((writeBack F r.2 callee args).map .copyOut ++ (exits ++ [.keep (.call callee args)]))

theorem deadUse_eq (curr : StateMap) (callee : String) (args : List Nat) (s : Nat) :
    deadUse ctx curr callee args s = ((curr s).isSome && ctx.mayWrite callee args s) := by
  unfold deadUse Context.mayWrite
  cases ctx.helperFuncs callee with
  | none => simp
  | some h => cases hnested : h.hasNestedCall <;> simp [hnested]

variable {curr : StateMap} {callee : String} {args : List Nat} {s : Nat}

theorem mayRead_of_deadDef (h : deadDef ctx curr callee args s = true) :
    curr s ≠ none ∧ ctx.mayRead callee args s = true := by
  unfold deadDef at h
  unfold Context.mayRead
  cases hcurrent : curr s with
  | none => cases hf : ctx.helperFuncs callee <;> simp_all
  | some c =>
    cases hf : ctx.helperFuncs callee with
    | none => simp
    | some i =>
      cases hnested : i.hasNestedCall with
      | true => simp [hnested]
      | false =>
        simp only [hf,hnested,hcurrent,Bool.false_eq_true,if_false,Bool.or_eq_true,Bool.and_eq_true]
            at h
        rcases h with ⟨-,huse⟩ | ⟨-,hconflict,harg⟩
        · exact ⟨by simp,by simp only [huse,Bool.or_true,Bool.true_or]⟩
        · exact ⟨by simp,by simp only [hconflict,harg,Bool.and_self,Bool.or_true]⟩

theorem deadDef_of_dirty (hdirty : curr s = some .dirty)
    (hread : ctx.mayRead callee args s = true) : deadDef ctx curr callee args s = true := by
  unfold Context.mayRead at hread
  unfold deadDef
  cases hf : ctx.helperFuncs callee with
  | none => simp [hdirty]
  | some i =>
    cases hnested : i.hasNestedCall with
    | true => simp [hdirty,hnested]
    | false =>
      simp only [hf,hnested,Bool.false_or,Bool.or_eq_true] at hread
      simpa [hdirty,hnested] using hread

theorem afterCall_ne_none (h : afterCall ctx curr callee args s ≠ none) :
    afterCall ctx curr callee args s = curr s ∧ ctx.mayWrite callee args s = false ∧
      (curr s = some .dirty → ctx.mayRead callee args s = false) := by
  unfold afterCall at h ⊢
  cases hdef : deadDef ctx curr callee args s with
  | true => simp [hdef] at h
  | false =>
    cases huse : deadUse ctx curr callee args s with
    | true => simp [hdef,huse] at h
    | false =>
      simp only [hdef,huse,Bool.or_self,Bool.false_eq_true,if_false] at h ⊢
      have hsome : (curr s).isSome = true := Option.isSome_iff_ne_none.mpr h
      rw [deadUse_eq,hsome,Bool.true_and] at huse
      refine ⟨trivial,huse,fun hdirty => ?_⟩
      cases hread : ctx.mayRead callee args s with
      | false => rfl
      | true => simp [deadDef_of_dirty hdirty hread] at hdef

structure Rel (F : IrFunction ctx) (curr : StateMap) (f : Frame) (x : Split) : Prop where
  mem : f.mem = x.base
  known : ∀ s, curr s ≠ none → s ∈ states F
  held : ∀ s, curr s ≠ none → Holds (stateInfo F s) (f.alloca s) (x.base s) (x.cur s)
  same : ∀ s, curr s ≠ some .dirty → x.cur s = x.base s

theorem Rel.empty (F : IrFunction ctx) (mem : Mem) (alloca : Nat → Nat) :
    Rel F (fun _ => none) ⟨mem,alloca⟩ ⟨mem,mem⟩ :=
  ⟨rfl,fun _ h => absurd rfl h,fun _ h => absurd rfl h,fun _ _ => rfl⟩

variable {F : IrFunction ctx} {f : Frame} {x : Split}

variable {b : Nat}

section

variable (h : Rel F curr f x)
include h

theorem Rel.within (s : Nat) : Within (stateInfo F s) (x.base s) (x.cur s) := by
  by_cases hs : curr s = none
  · rw [h.same s (by simp [hs])]
    exact Within.refl _ _
  · exact (h.held s hs).within

theorem Rel.copyIn (hs : s ∈ states F) (hnone : curr s = none) :
    Rel F (update curr s (some .clean)) (f.copyIn (stateInfo F) s) x := by
  have hsame : x.cur s = x.base s := h.same s (by simp [hnone])
  constructor
  · exact h.mem
  · intro s' hs'
    by_cases heq : s' = s
    · exact heq ▸ hs
    · rw [update_of_ne heq] at hs'
      exact h.known s' hs'
  · intro s' hs'
    by_cases heq : s' = s
    · subst heq
      simp only [Frame.copyIn,update_self,h.mem,hsame]
      exact holds_extract _ _
    · rw [update_of_ne heq] at hs'
      simp only [Frame.copyIn,update_of_ne heq]
      exact h.held s' hs'
  · intro s' hs'
    by_cases heq : s' = s
    · exact heq ▸ hsame
    · rw [update_of_ne heq] at hs'
      exact h.same s' hs'

theorem Rel.store {a : Access} (ha : a ∈ accesses F) (v : Nat)
    (hheld : Holds (stateInfo F a.state) ((f.store (stateInfo F) a v).alloca a.state)
      (x.base a.state) (Lib.Bits.insert (x.cur a.state) a.diff a.bits v)) :
    Rel F (update curr a.state (some .dirty)) (f.store (stateInfo F) a v)
      { x with cur := x.cur.put a v } := by
  constructor
  · exact h.mem
  · intro s hs
    by_cases heq : s = a.state
    · exact heq ▸ mem_states F ha
    · rw [update_of_ne heq] at hs
      exact h.known s hs
  · intro s hs
    by_cases heq : s = a.state
    · subst heq
      simpa only [Mem.put,update_self] using hheld
    · rw [update_of_ne heq] at hs
      simp only [Frame.store,update_of_ne heq,put_of_ne v heq]
      exact h.held s hs
  · intro s hs
    by_cases heq : s = a.state
    · simp [heq] at hs
    · rw [update_of_ne heq] at hs
      simp only [put_of_ne v heq]
      exact h.same s hs

theorem Rel.copyOuts_mem (callee : String) (args : List Nat) :
    (f.copyOuts (stateInfo F) (writeBack F curr callee args)).mem = x.synced ctx callee args := by
  funext s
  simp only [Frame.copyOuts,Split.synced,h.mem]
  by_cases hmem : s ∈ writeBack F curr callee args
  · have hdead := mayRead_of_deadDef (mem_filter.mp hmem).2
    rw [if_pos hmem,if_pos hdead.2]
    exact (h.held s hdead.1).1.symm
  · rw [if_neg hmem]
    by_cases hread : ctx.mayRead callee args s = true
    · rw [if_pos hread]
      by_cases hdirty : curr s = some .dirty
      · have hin : s ∈ writeBack F curr callee args :=
          mem_filter.mpr ⟨h.known s (by simp [hdirty]),deadDef_of_dirty hdirty hread⟩
        exact absurd hin hmem
      · exact (h.same s hdirty).symm
    · rw [if_neg hread]

theorem Rel.call (callee : String) (args : List Nat) (effect : Mem × Mem) :
    Rel F (afterCall ctx curr callee args)
      ⟨write ctx callee args effect (x.synced ctx callee args),f.alloca⟩
      (x.reload ctx callee args (write ctx callee args effect (x.synced ctx callee args))) := by
  constructor
  · rfl
  · intro s hs
    obtain ⟨heq,-,-⟩ := afterCall_ne_none hs
    exact h.known s (heq ▸ hs)
  · intro s hs
    obtain ⟨heq,hwrite,hread⟩ := afterCall_ne_none hs
    have hheld := h.held s (heq ▸ hs)
    simp only [Split.reload,write,hwrite,Bool.false_eq_true,if_false,Split.synced]
    by_cases hr : ctx.mayRead callee args s = true
    · have hclean : curr s ≠ some .dirty := fun hdirty => by simp [hread hdirty] at hr
      rw [if_pos hr,h.same s hclean]
      rwa [h.same s hclean] at hheld
    · rwa [if_neg hr]
  · intro s hs
    simp only [Split.reload,write,Split.synced]
    by_cases hw : ctx.mayWrite callee args s = true
    · simp [hw]
    by_cases hr : ctx.mayRead callee args s = true
    · simp [hw,hr]
    have hkeep : afterCall ctx curr callee args s = curr s := by
      have hdef : deadDef ctx curr callee args s = false :=
        Bool.eq_false_iff.mpr fun hd => hr (mayRead_of_deadDef hd).2
      simp [afterCall,hdef,deadUse_eq,hw]
    rw [hkeep] at hs
    simpa [hw,hr] using h.same s hs

theorem Rel.load_eq {a : Access} (ha : a ∈ accesses F) (hin : a.diff+a.bits ≤ ctx.size a.state)
    (hs : curr a.state ≠ none) : f.load (stateInfo F) a = x.cur.get a :=
  f.load_eq (stateInfo_fits F ha) hin (h.held a.state hs)

theorem Rel.mapOp (env : Env) {op : Op} (hop : op ∈ (F.block b).body) (l : List Event) :
    (Allocas.exec ctx (stateInfo F) env (mapOp F curr op).1 f l).2 =
        (Deferred.step ctx env op x l).2 ∧
      Rel F (mapOp F curr op).2 (Allocas.exec ctx (stateInfo F) env (mapOp F curr op).1 f l).1
        (Deferred.step ctx env op x l).1 := by
  have hproper := F.block_proper hop
  cases op with
  | load a =>
    have ha : a ∈ accesses F := mem_accesses F hop rfl
    cases hs : (curr a.state).isNone with
    | true =>
      have hcopy := h.copyIn (mem_states F ha) (Option.isNone_iff_eq_none.mp hs)
      have hload := hcopy.load_eq ha hproper (by simp)
      simp only [MapState.mapOp,hs,if_true,Allocas.exec,Allocas.step,Deferred.step,hload,true_and]
      exact hcopy
    | false =>
      have hne : curr a.state ≠ none := fun hnone => by simp [hnone] at hs
      have hload := h.load_eq ha hproper hne
      simp only [MapState.mapOp,hs,Bool.false_eq_true,if_false,Allocas.exec,Allocas.step,
        Deferred.step,hload,true_and]
      exact h
  | store a =>
    have ha : a ∈ accesses F := mem_accesses F hop rfl
    have hfit := stateInfo_fits F ha
    cases halign : (stateInfo F a.state).isAligned with
    | true =>
      simp only [MapState.mapOp,halign,Bool.not_true,Bool.false_and,Bool.false_eq_true,
        if_false,Allocas.exec,Allocas.step,Deferred.step,true_and]
      exact h.store ha _ (f.holds_store_aligned hfit halign (h.within a.state) _)
    | false =>
      cases hs : (curr a.state).isNone with
      | true =>
        have hcopy := h.copyIn (mem_states F ha) (Option.isNone_iff_eq_none.mp hs)
        have hheld := hcopy.held a.state (by simp)
        have hstore := hcopy.store ha (env.value a l) (Frame.holds_store _ hfit hproper hheld _)
        rw [update_idem] at hstore
        simp only [MapState.mapOp,halign,hs,Bool.not_false,Bool.and_self,if_true,
          Allocas.exec,Allocas.step,Deferred.step,true_and]
        exact hstore
      | false =>
        have hne : curr a.state ≠ none := fun hnone => by simp [hnone] at hs
        have hheld := h.held a.state hne
        simp only [MapState.mapOp,halign,hs,Bool.and_false,Bool.false_eq_true,if_false,
          Allocas.exec,Allocas.step,Deferred.step,true_and]
        exact h.store ha _ (f.holds_store hfit hproper hheld _)
  | call callee args =>
    simp only [MapState.mapOp,Deferred.step]
    rw [exec_copyOuts]
    simp only [Allocas.exec,Allocas.step,StateIr.step,h.copyOuts_mem callee args,true_and]
    exact h.call callee args _

theorem Rel.mapOps (env : Env) {ops : List Op}
    (hops : ∀ op ∈ ops, op ∈ (F.block b).body) (l : List Event) :
    (Allocas.exec ctx (stateInfo F) env (mapOps F ops curr).1 f l).2 =
        (Deferred.exec ctx env ops x l).2 ∧
      Rel F (mapOps F ops curr).2 (Allocas.exec ctx (stateInfo F) env (mapOps F ops curr).1 f l).1
        (Deferred.exec ctx env ops x l).1 := by
  induction ops generalizing curr f x l with
  | nil => exact ⟨rfl,h⟩
  | cons op ops ih =>
    have hop := h.mapOp env (hops op mem_cons_self) l
    have hrest := ih hop.2 (fun op' hmem => hops op' (mem_cons_of_mem op hmem))
      (Deferred.step ctx env op x l).2
    simp only [MapState.mapOps,Deferred.exec,exec_append]
    rw [hop.1]
    exact hrest

end

def post (F : IrFunction ctx) (b : Nat) : Post := if F.graph.leaf b then .atEnd else .never

structure Follows (F : IrFunction ctx) (out : StateMap) (preload : List Nat) (entry : StateMap) :
    Prop where
  known : ∀ s, entry s ≠ none → s ∈ states F
  kept : ∀ s, out s ≠ none → entry s ≠ none
  dirty : ∀ s, out s = some .dirty → entry s = some .dirty
  loaded : ∀ s, entry s ≠ none → out s = none → s ∈ preload

theorem Rel.follow {out entry : StateMap} {preload : List Nat} (h : Rel F out f x)
    (hfollow : Follows F out preload entry) (hpreload : ∀ s ∈ preload, out s = none) :
    Rel F entry (f.copyIns (stateInfo F) preload) x := by
  constructor
  · exact h.mem
  · exact hfollow.known
  · intro s hs
    by_cases hmem : s ∈ preload
    · have hsame : x.cur s = x.base s := h.same s (by simp [hpreload s hmem])
      simp only [Frame.copyIns,hmem,if_true,h.mem,hsame]
      exact holds_extract _ _
    · simp only [Frame.copyIns,hmem,if_false]
      exact h.held s fun hnone => hmem (hfollow.loaded s hs hnone)
  · intro s hs
    exact h.same s fun hdirty => hs (hfollow.dirty s hdirty)

def innerCode (F : IrFunction ctx) (b : Nat) (st : StateMap) (preload : List Nat) : List Inst :=
  (mapOps F (F.block b).body st).1 ++ preload.map .copyIn

variable {st : StateMap}

theorem Rel.inner (preload : List Nat) (h : Rel F st f x) (env : Env)
    (hb : F.graph.leaf b = false) (l : List Event) :
    (Allocas.exec ctx (stateInfo F) env (innerCode F b st preload) f l).2 =
        (Deferred.execBlock F (post F) env b x l).2 ∧
      ∀ {entry : StateMap}, (∀ s ∈ preload, outState F b st s = none) →
        Follows F (outState F b st) preload entry →
        Rel F entry (Allocas.exec ctx (stateInfo F) env (innerCode F b st preload) f l).1
          (Deferred.execBlock F (post F) env b x l).1 := by
  have hops := h.mapOps env (b := b) (fun op hop => hop) l
  have hnever : post F b = .never := by simp [post,hb]
  unfold innerCode
  rw [Deferred.execBlock_never hnever,exec_append,exec_copyIns_end]
  exact ⟨hops.1,fun hpreload hfollow => hops.2.follow hfollow hpreload⟩

theorem Rel.exit (h : Rel F curr f x) :
    (f.copyOuts (stateInfo F) (exitDef F curr)).mem = (x.flush ctx true).base := by
  funext s
  simp only [Frame.copyOuts,Split.flush,Bool.true_and,h.mem]
  by_cases hmem : s ∈ exitDef F curr
  · have hdirty := (mem_filter.mp hmem).2
    simp only [Bool.and_eq_true,beq_iff_eq] at hdirty
    rw [if_pos hmem,if_pos hdirty.2]
    exact (h.held s (by simp [hdirty.1])).1.symm
  · rw [if_neg hmem]
    cases hscratch : ctx.scratch s with
    | true => simp
    | false =>
      have hclean : curr s ≠ some .dirty := fun hdirty => hmem
        (mem_filter.mpr ⟨h.known s (by simp [hdirty]),by simp [hdirty,hscratch]⟩)
      simp [h.same s hclean]

theorem mapOps_append (F : IrFunction ctx) (ops rest : List Op) (curr : StateMap) :
    (mapOps F (ops ++ rest) curr).2 = (mapOps F rest (mapOps F ops curr).2).2 := by
  induction ops generalizing curr with
  | nil => rfl
  | cons op ops ih => exact ih _

theorem exitDef_afterCall (hs : s ∈ exitDef F (afterCall ctx curr callee args)) :
    ctx.mayRead callee args s = false ∧ ctx.mayWrite callee args s = false := by
  have hdirty := (mem_filter.mp hs).2
  simp only [Bool.and_eq_true,beq_iff_eq] at hdirty
  have hne : afterCall ctx curr callee args s ≠ none := by simp [hdirty.1]
  obtain ⟨heq,hwrite,hread⟩ := afterCall_ne_none hne
  exact ⟨hread (heq ▸ hdirty.1),hwrite⟩

/-- Exit copies placed before the last call rather than after it: they are of states the
call does not touch. -/
theorem Rel.exitCall (h : Rel F curr f x) (env : Env) (callee : String) (args : List Nat)
    (l : List Event) :
    let exits := exitDef F (afterCall ctx curr callee args)
    let r := Allocas.exec ctx (stateInfo F) env ((writeBack F curr callee args).map .copyOut ++
      (exits.map .copyOut ++ [.keep (.call callee args)])) f l
    r.2 = (Deferred.step ctx env (.call callee args) x l).2 ∧
      r.1.mem = ((Deferred.step ctx env (.call callee args) x l).1.flush ctx true).base := by
  intro exits r
  have hmem := h.copyOuts_mem callee args
  have hread : ∀ s ∈ exits, ctx.mayRead callee args s = false :=
    fun s hs => (exitDef_afterCall hs).1
  have hnot : ∀ s ∈ exits, ctx.mayWrite callee args s = false :=
    fun s hs => (exitDef_afterCall hs).2
  have hsee := see_copyOuts (stateInfo F)
    (f.copyOuts (stateInfo F) (writeBack F curr callee args)) hread
  have hwrite := write_copyOuts (stateInfo F)
    (f.copyOuts (stateInfo F) (writeBack F curr callee args)) hnot
  rw [hmem] at hsee hwrite
  simp only [r,exec_copyOuts,Allocas.exec,Allocas.step,StateIr.step,Deferred.step,hsee,hwrite,
      true_and]
  exact (h.call callee args _).exit

theorem Rel.leaf (h : Rel F st f x) (env : Env) (hb : F.graph.leaf b = true) (l : List Event) :
    (Allocas.exec ctx (stateInfo F) env (leafCode F b st) f l).2 =
        (Deferred.execBlock F (post F) env b x l).2 ∧
      (Allocas.exec ctx (stateInfo F) env (leafCode F b st) f l).1.mem =
        (Deferred.execBlock F (post F) env b x l).1.base := by
  have hatEnd : post F b = .atEnd := by simp [post,hb]
  have hops := h.mapOps env (b := b)
    (fun op (hop : op ∈ (F.block b).ops) => mem_append_left _ hop) l
  rw [Deferred.execBlock_atEnd hatEnd]
  unfold leafCode outState Block.body Block.tail
  cases hexit : (F.block b).exitCall with
  | none =>
    simp only [append_nil]
    rw [exec_append,exec_copyOuts_end]
    exact ⟨hops.1,hops.2.exit⟩
  | some call =>
    obtain ⟨callee,args⟩ := call
    have hcall := hops.2.exitCall env callee args
      (Allocas.exec ctx (stateInfo F) env (MapState.mapOps F (F.block b).ops st).1 f l).2
    simp only [mapOps_append,Deferred.exec_append]
    rw [exec_append,← hops.1]
    exact hcall

end Hqemu.Llvm.MapState
