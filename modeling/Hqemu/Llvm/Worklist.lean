import Hqemu.Llvm.MapState
import Mathlib.Data.Finset.Card

/-! The order in which the acyclic mode of the state mapping pass maps the blocks. -/
namespace Hqemu.Llvm.Worklist
open Function List Option StateIr Allocas MapState

variable {ctx : Context}

def preds (F : IrFunction ctx) (c : Nat) : List Nat :=
  (List.range F.blocks.length).flatMap fun b => List.replicate ((F.graph.succs b).count c) b

def isJoin (F : IrFunction ctx) (c : Nat) : Bool := 2 ≤ (preds F c).length

def mergeStep (merge : StateMap) (sm : StateMap) : StateMap := fun s =>
  match sm s with
  | none => merge s
  | some .clean => if (merge s).isNone then some .clean else merge s
  | some .dirty => some .dirty

/-- `MergeState`: the union of the incoming states, dirty where any of them is. -/
def mergeState (incoming : List StateMap) : StateMap := incoming.foldl mergeStep fun _ => none

def missing (F : IrFunction ctx) (merge sm : StateMap) : List Nat :=
  (states F).filter fun s => (merge s).isSome && (sm s).isNone

structure Pass where
  /-- The blocks mapped so far, with the states each was mapped with. -/
  entry : Nat → Option StateMap
  /-- `StateBuck`, each state map with its entry of `PredBuck`. -/
  stateBuck : Nat → List (Nat × StateMap)
  acyclicBB : Nat → Option Nat
  worklist : List Nat
  /-- The states each block copies to their allocas before its terminator. -/
  preload : Nat → List Nat

def Pass.enter (P : Pass) (b : Nat) (st : StateMap) : Pass :=
  { P with entry := Function.update P.entry b (some st) }

def Pass.arrive (P : Pass) (b : Nat) (out : StateMap) (c k : Nat) : Pass :=
  { P with
    stateBuck := Function.update P.stateBuck c (P.stateBuck c ++ [(b,out)])
    acyclicBB := Function.update P.acyclicBB c (some (k-1))
    worklist := if k - 1 = 0 then c :: P.worklist else P.worklist }

def mapState (F : IrFunction ctx) : Nat → Nat → StateMap → Pass → Pass
  | 0, _, _, P => P
  | fuel+1, b, st, P =>
    (F.graph.succs b).foldl (fun P c =>
      match P.acyclicBB c with
      | some k => P.arrive b (outState F b st) c k
      | none => mapState F fuel c (outState F b st) P) (P.enter b st)

def addPreloads (F : IrFunction ctx) (merge : StateMap) (incoming : List (Nat × StateMap))
    (preload : Nat → List Nat) : Nat → List Nat :=
  incoming.foldl (fun p i => Function.update p i.1 (p i.1 ++ missing F merge i.2)) preload

def Pass.take (F : IrFunction ctx) (P : Pass) (b : Nat) (rest : List Nat) : Pass :=
  { P with
    worklist := rest
    preload := addPreloads F (mergeState ((P.stateBuck b).map Prod.snd)) (P.stateBuck b)
      P.preload }

def drain (F : IrFunction ctx) : Nat → Pass → Pass
  | 0, P => P
  | fuel+1, P =>
    match P.worklist with
    | [] => P
    | b :: rest =>
      drain F fuel (mapState F F.blocks.length b (mergeState ((P.stateBuck b).map Prod.snd))
        (P.take F b rest))

def Pass.init (F : IrFunction ctx) : Pass where
  entry _ := none
  stateBuck _ := []
  acyclicBB c := if isJoin F c then some (preds F c).length else none
  worklist := [F.graph.entry]
  preload _ := []

def run (F : IrFunction ctx) : Pass := drain F F.blocks.length (.init F)

structure Acyclic (F : IrFunction ctx) where
  rank : Nat → Nat
  rank_lt : ∀ b, b < F.blocks.length → rank b < F.blocks.length
  edge : ∀ b c, c ∈ F.graph.succs b → c < F.blocks.length ∧ rank b < rank c
  entry_lt : F.graph.entry < F.blocks.length
  entry_first : ∀ b, F.graph.entry ∉ F.graph.succs b
  pred : ∀ c, c < F.blocks.length → c ≠ F.graph.entry → ∃ b, c ∈ F.graph.succs b

theorem foldl_mergeStep_keeps (incoming : List StateMap) (merge : StateMap) (s : Nat) :
    (merge s ≠ none → incoming.foldl mergeStep merge s ≠ none) ∧
      (merge s = some .dirty → incoming.foldl mergeStep merge s = some .dirty) := by
  induction incoming generalizing merge with
  | nil => exact ⟨id,id⟩
  | cons sm incoming ih =>
    have hstep : (merge s ≠ none → mergeStep merge sm s ≠ none) ∧
        (merge s = some .dirty → mergeStep merge sm s = some .dirty) := by
      unfold mergeStep
      cases hsm : sm s with
      | none => exact ⟨id,id⟩
      | some c => cases c <;> cases hm : merge s <;> simp_all
    exact ⟨fun h => (ih _).1 (hstep.1 h),fun h => (ih _).2 (hstep.2 h)⟩

variable {incoming : List StateMap}

theorem mergeState_of_mem {sm : StateMap} (hsm : sm ∈ incoming) (s : Nat) :
    (sm s ≠ none → mergeState incoming s ≠ none) ∧
      (sm s = some .dirty → mergeState incoming s = some .dirty) := by
  obtain ⟨before,after,rfl⟩ := append_of_mem hsm
  unfold mergeState
  rw [foldl_append,foldl_cons]
  generalize before.foldl mergeStep (fun _ => none) = merge
  have hkeeps := foldl_mergeStep_keeps after (mergeStep merge sm) s
  constructor
  · intro h
    apply hkeeps.1
    unfold mergeStep
    cases hs : sm s with
    | none => exact absurd hs h
    | some c => cases c <;> cases hm : merge s <;> simp
  · intro h
    apply hkeeps.2
    simp [mergeStep,h]

theorem exists_of_mergeState {s : Nat} (h : mergeState incoming s ≠ none) :
    ∃ sm ∈ incoming, sm s ≠ none := by
  unfold mergeState at h
  induction incoming using List.reverseRecOn with
  | nil => exact absurd rfl h
  | append_singleton incoming sm ih =>
    rw [foldl_append,foldl_cons,foldl_nil] at h
    by_cases hs : sm s = none
    · simp only [mergeStep,hs] at h
      obtain ⟨sm',hmem,hne⟩ := ih h
      exact ⟨sm',mem_append_left _ hmem,hne⟩
    · exact ⟨sm,by simp,hs⟩

def Known (F : IrFunction ctx) (st : StateMap) : Prop := ∀ s, st s ≠ none → s ∈ states F

variable {F : IrFunction ctx}

theorem Known.mapOps {st : StateMap} (h : Known F st) {b : Nat} {ops : List Op}
    (hops : ∀ op ∈ ops, op ∈ (F.block b).body) : Known F (mapOps F ops st).2 := by
  induction ops generalizing st with
  | nil => exact h
  | cons op ops ih =>
    apply ih _ fun op' hmem => hops op' (mem_cons_of_mem op hmem)
    have hop := hops op mem_cons_self
    intro s hs
    cases op with
    | load a =>
      by_cases heq : s = a.state
      · exact heq ▸ mem_states F (mem_accesses F hop rfl)
      · apply h s
        cases hnone : (st a.state).isNone <;> simpa [MapState.mapOp,hnone,heq] using hs
    | store a =>
      by_cases heq : s = a.state
      · exact heq ▸ mem_states F (mem_accesses F hop rfl)
      · apply h s
        simpa [MapState.mapOp,heq] using hs
    | call callee args =>
      obtain ⟨heq,-,-⟩ := afterCall_ne_none hs
      exact h s (heq ▸ hs)

theorem Known.outState {st : StateMap} (h : Known F st) (b : Nat) :
    Known F (outState F b st) := h.mapOps (b := b) fun _ hop => hop

theorem Known.mergeState (h : ∀ sm ∈ incoming, Known F sm) : Known F (mergeState incoming) := by
  intro s hs
  obtain ⟨sm,hmem,hne⟩ := exists_of_mergeState hs
  exact h sm hmem s hne

theorem succs_of_not_lt (F : IrFunction ctx) {b : Nat} (hb : ¬ b < F.blocks.length) :
    F.graph.succs b = [] := by
  simp [IrFunction.graph,IrFunction.block,List.getD,List.getElem?_eq_none (Nat.not_lt.mp hb),
    Block.succs]

theorem count_flatMap_replicate {l : List Nat} (hl : l.Nodup) (f : Nat → Nat) (b : Nat) :
    (l.flatMap fun a => List.replicate (f a) a).count b = if b ∈ l then f b else 0 := by
  induction l with
  | nil => rfl
  | cons a l ih =>
    rw [nodup_cons] at hl
    rw [flatMap_cons,count_append,count_replicate,ih hl.2]
    by_cases hab : a = b
    · subst hab
      simp [hl.1]
    · simp [hab,Ne.symm hab]

theorem count_preds (F : IrFunction ctx) (b c : Nat) :
    (preds F c).count b = (F.graph.succs b).count c := by
  unfold preds
  rw [count_flatMap_replicate nodup_range]
  by_cases hb : b < F.blocks.length
  · simp [hb]
  · simp [hb,succs_of_not_lt F hb]

/-! While the pass runs some edges were followed and those of the blocks being mapped, the list
`edges` below, are still to be followed. -/

def arrived (F : IrFunction ctx) (P : Pass) (c : Nat) : List Nat :=
  if isJoin F c then (P.stateBuck c).map Prod.fst
  else if (P.entry c).isSome then preds F c else []

def Ready (F : IrFunction ctx) (P : Pass) (c : Nat) : Prop :=
  c = F.graph.entry ∨ isJoin F c = true ∧ (P.stateBuck c).length = (preds F c).length

structure Tally (F : IrFunction ctx) (P : Pass) (edges : List (Nat × Nat)) : Prop where
  count : ∀ b c, (arrived F P c).count b + edges.count (b,c) =
    if (P.entry b).isSome then (F.graph.succs b).count c else 0
  counter : ∀ c, P.acyclicBB c =
    if isJoin F c then some ((preds F c).length - (P.stateBuck c).length) else none
  work : ∀ c, c ∈ P.worklist ↔ Ready F P c ∧ P.entry c = none
  nodup : P.worklist.Nodup
  ready : ∀ c, isJoin F c = true → P.entry c ≠ none → Ready F P c
  plain : ∀ c, isJoin F c = false → P.stateBuck c = []

theorem count_edge_cons (b c b' c' : Nat) (edges : List (Nat × Nat)) :
    ((b,c) :: edges).count (b',c') = edges.count (b',c') + if b = b' ∧ c = c' then 1 else 0 := by
  rw [count_cons]
  simp [Prod.ext_iff]

theorem count_edges (b b' c' : Nat) (l : List Nat) :
    (l.map fun c => (b,c)).count (b',c') = if b = b' then l.count c' else 0 := by
  induction l with
  | nil => simp
  | cons c l ih =>
    rw [map_cons,count_edge_cons,ih,count_cons]
    by_cases hb : b = b'
    · simp [hb]
    · simp [hb]

section tally
variable {F : IrFunction ctx} {P : Pass} {edges : List (Nat × Nat)} {b c : Nat}

theorem Tally.le (h : Tally F P edges) (b c : Nat) :
    (arrived F P c).count b + edges.count (b,c) ≤ (preds F c).count b := by
  rw [h.count,count_preds]
  split <;> simp

section

variable (h : Tally F P ((b, c) :: edges))
include h

theorem Tally.length_lt (hc : isJoin F c = true) : (P.stateBuck c).length < (preds F c).length := by
  have hle := h.le
  have hsub : ((P.stateBuck c).map Prod.fst).Subperm (preds F c) := by
    rw [subperm_ext_iff]
    intro b' _
    have := hle b' c
    rw [arrived,if_pos hc] at this
    omega
  have hlen := hsub.length_le
  rw [length_map] at hlen
  apply Nat.lt_of_le_of_ne hlen
  intro heq
  have hperm := hsub.perm_of_length_le (by rw [length_map,heq])
  have hcount := hle b c
  rw [arrived,if_pos hc,hperm.count_eq,count_edge_cons] at hcount
  simp only [and_self,if_true] at hcount
  omega

theorem Tally.mem_succs : P.entry b ≠ none ∧ c ∈ F.graph.succs b := by
  have hcount := h.count b c
  rw [count_edge_cons] at hcount
  cases hb : P.entry b with
  | none => simp [hb] at hcount
  | some e =>
    refine ⟨by simp,?_⟩
    apply count_pos_iff.mp
    simp only [hb,isSome_some,if_true,and_self] at hcount
    omega

theorem Tally.ne_entry (hF : Acyclic F) :
    c ≠ F.graph.entry := fun heq => hF.entry_first b (heq ▸ h.mem_succs.2)

theorem Tally.not_ready (hF : Acyclic F) (hc : isJoin F c = true) : ¬ Ready F P c := by
  have hlt := h.length_lt hc
  rintro (heq | ⟨-,hfull⟩)
  · exact h.ne_entry hF heq
  · omega

theorem Tally.entry_none (hF : Acyclic F) (hc : isJoin F c = true) : P.entry c = none := by
  by_contra hne
  exact h.not_ready hF hc (h.ready c hc hne)

end

theorem Tally.isJoin_of_some (h : Tally F P edges) {k : Nat} (hk : P.acyclicBB c = some k) :
    isJoin F c = true := by
  have hcounter := h.counter c
  cases hj : isJoin F c with
  | true => rfl
  | false => simp [hk,hj] at hcounter

theorem Tally.isJoin_of_none (h : Tally F P edges) (hk : P.acyclicBB c = none) :
    isJoin F c = false := by
  have hcounter := h.counter c
  cases hj : isJoin F c with
  | false => rfl
  | true => simp [hk,hj] at hcounter

theorem Tally.arrive (h : Tally F P ((b,c) :: edges)) (hF : Acyclic F) {k : Nat}
    (hk : P.acyclicBB c = some k) (out : StateMap) : Tally F (P.arrive b out c k) edges := by
  have hcounter := h.counter c
  have hc := h.isJoin_of_some hk
  have hlt := h.length_lt hc
  rw [hk,if_pos hc,some.injEq] at hcounter
  have hentry := h.ne_entry hF
  have hnone := h.entry_none hF hc
  have hnot := h.not_ready hF hc
  have hready : ∀ c', c' ≠ c → (Ready F (P.arrive b out c k) c' ↔ Ready F P c') := by
    intro c' hne
    simp [Ready,Pass.arrive,hne]
  constructor
  · intro b' c'
    have hold := h.count b' c'
    rw [count_edge_cons] at hold
    refine Eq.trans ?_ hold
    by_cases hcc : c' = c
    · subst hcc
      simp only [arrived,hc,if_true,Pass.arrive,update_self,map_append,
        map_cons,map_nil,count_append,count_singleton,and_true]
      by_cases hbb : b = b'
      · simp [hbb]
        omega
      · simp [hbb]
    · have hsame : arrived F (P.arrive b out c k) c' = arrived F P c' := by
        have hbucket : (P.arrive b out c k).stateBuck c' = P.stateBuck c' := update_of_ne hcc _ _
        rw [arrived,hbucket]
        rfl
      rw [hsame,if_neg (fun hand => hcc hand.2.symm)]
      rfl
  · intro c'
    by_cases hcc : c' = c
    · subst hcc
      simp only [Pass.arrive,update_self,hc,if_true,length_append,length_cons,length_nil,some.injEq]
      omega
    · simp only [Pass.arrive,update_of_ne hcc]
      exact h.counter c'
  · intro c'
    by_cases hcc : c' = c
    · subst hcc
      have hmem : c' ∉ P.worklist := fun hin => hnot ((h.work c').mp hin).1
      have hthis : Ready F (P.arrive b out c' k) c' ↔ k-1 = 0 := by
        simp only [Ready,hentry,hc,Pass.arrive,update_self,length_append,
          length_cons,length_nil,false_or,true_and]
        omega
      rw [hthis]
      by_cases hk0 : k-1 = 0 <;> simp [Pass.arrive,hk0,hmem,hnone]
    · have hin : c' ∈ (P.arrive b out c k).worklist ↔ c' ∈ P.worklist := by
        by_cases hk0 : k-1 = 0 <;> simp [Pass.arrive,hk0,hcc]
      rw [hin,h.work c',hready c' hcc]
      rfl
  · have hmem : c ∉ P.worklist := fun hin => hnot ((h.work c).mp hin).1
    by_cases hk0 : k-1 = 0 <;> simp [Pass.arrive,hk0,hmem,h.nodup]
  · intro c' hj hne
    by_cases hcc : c' = c
    · exact absurd hnone (hcc ▸ hne)
    · exact (hready c' hcc).mpr (h.ready c' hj hne)
  · intro c' hj
    have hcc : c' ≠ c := by
      rintro rfl
      simp [hc] at hj
    simp only [Pass.arrive,update_of_ne hcc]
    exact h.plain c' hj

theorem Tally.enter {P' : Pass} {st : StateMap} {edges' : List (Nat × Nat)} (h : Tally F P edges)
    (hnone : P.entry c = none) (hentry : P'.entry = update P.entry c (some st))
    (hbucket : P'.stateBuck = P.stateBuck) (hacyclic : P'.acyclicBB = P.acyclicBB)
    (hwork : ∀ c', c' ∈ P'.worklist ↔ c' ∈ P.worklist ∧ c' ≠ c) (hnodup : P'.worklist.Nodup)
    (hready : isJoin F c = true → Ready F P c)
    (hcount : ∀ b c', (arrived F P' c').count b + edges'.count (b,c') =
      (arrived F P c').count b + edges.count (b,c')) :
    Tally F P' ((F.graph.succs c).map (fun c' => (c,c')) ++ edges') := by
  have hsame : ∀ c', Ready F P' c' ↔ Ready F P c' := by
    intro c'
    rw [Ready,Ready,hbucket]
  constructor
  · intro b c'
    have hold := h.count b c'
    rw [count_append,count_edges,hentry]
    by_cases hb : c = b
    · subst hb
      rw [← hcount,hnone] at hold
      simp only [isSome_none,Bool.false_eq_true,if_false] at hold
      simp only [if_true,update_self,isSome_some]
      omega
    · rw [← hcount] at hold
      rw [if_neg hb,update_of_ne (Ne.symm hb)]
      omega
  · intro c'
    rw [hacyclic,hbucket]
    exact h.counter c'
  · intro c'
    rw [hwork,h.work,hsame,hentry]
    by_cases hc : c' = c
    · simp [hc]
    · simp [hc]
  · exact hnodup
  · intro c' hj hne
    rw [hsame]
    by_cases hc : c' = c
    · exact hc ▸ hready (hc ▸ hj)
    · rw [hentry,update_of_ne hc] at hne
      exact h.ready c' hj hne
  · intro c' hj
    rw [hbucket]
    exact h.plain c' hj

theorem preds_eq_singleton (hc : isJoin F c = false) (hb : c ∈ F.graph.succs b) :
    preds F c = [b] := by
  have hmem : b ∈ preds F c := by
    apply count_pos_iff.mp
    rw [count_preds]
    exact count_pos_iff.mpr hb
  have hlen : (preds F c).length ≤ 1 := by
    simp only [isJoin,decide_eq_false_iff_not] at hc
    omega
  have hpos := length_pos_of_mem hmem
  obtain ⟨b',hb'⟩ := length_eq_one_iff.mp (by omega : (preds F c).length = 1)
  rw [hb',mem_singleton] at hmem
  rw [hb',hmem]

theorem Tally.single (h : Tally F P ((b,c) :: edges)) (hF : Acyclic F)
    (hk : P.acyclicBB c = none) (st : StateMap) :
    P.entry c = none ∧
      Tally F (P.enter c st) ((F.graph.succs c).map (fun c' => (c,c')) ++ edges) := by
  have hc := h.isJoin_of_none hk
  have hsucc := h.mem_succs.2
  have hpreds := preds_eq_singleton hc hsucc
  have hnone : P.entry c = none := by
    have hle := h.le b c
    rw [count_edge_cons,arrived,hc] at hle
    cases he : P.entry c with
    | none => rfl
    | some e =>
      simp only [he,isSome_some,Bool.false_eq_true,if_false,if_true,and_self] at hle
      omega
  refine ⟨hnone,h.enter hnone rfl rfl rfl ?_ h.nodup (fun hj => absurd hj (by simp [hc])) ?_⟩
  · intro c'
    refine ⟨fun hin => ⟨hin,?_⟩,fun hin => hin.1⟩
    rintro rfl
    rcases ((h.work c').mp hin).1 with heq | ⟨hj,-⟩
    · exact h.ne_entry hF heq
    · simp [hc] at hj
  · intro b' c'
    rw [count_edge_cons]
    by_cases hcc : c' = c
    · subst hcc
      simp only [arrived,hc,Bool.false_eq_true,if_false,Pass.enter,update_self,isSome_some,
        if_true,hpreds,hnone,isSome_none,count_nil,count_singleton,beq_iff_eq,and_true]
      omega
    · have hsame : arrived F (P.enter c st) c' = arrived F P c' := by
        have hentry : (P.enter c st).entry c' = P.entry c' := update_of_ne hcc _ _
        rw [arrived,hentry]
        rfl
      rw [hsame,if_neg (fun hand => hcc hand.2.symm)]
      rfl

theorem preds_entry (hF : Acyclic F) : preds F F.graph.entry = [] := by
  apply eq_nil_iff_forall_not_mem.mpr
  intro b hb
  have hpos := count_pos_iff.mpr hb
  rw [count_preds] at hpos
  exact hF.entry_first b (count_pos_iff.mp hpos)

theorem Tally.take (h : Tally F P edges) (hF : Acyclic F) {rest : List Nat}
    (hwork : P.worklist = c :: rest) (st : StateMap) :
    P.entry c = none ∧ Tally F ((P.take F c rest).enter c st)
        ((F.graph.succs c).map (fun c' => (c,c')) ++ edges) := by
  have hin := (h.work c).mp (hwork ▸ mem_cons_self)
  have hnodup := h.nodup
  rw [hwork,nodup_cons] at hnodup
  refine ⟨hin.2,h.enter hin.2 rfl rfl rfl ?_ hnodup.2 (fun _ => hin.1) ?_⟩
  · intro c'
    rw [hwork,mem_cons]
    constructor
    · intro hmem
      exact ⟨.inr hmem,fun heq => hnodup.1 (heq ▸ hmem)⟩
    · rintro ⟨rfl | hmem,hne⟩
      · exact absurd rfl hne
      · exact hmem
  · intro b c'
    have hsame : arrived F ((P.take F c rest).enter c st) c' = arrived F P c' := by
      by_cases hcc : c' = c
      · subst hcc
        rcases hin.1 with rfl | ⟨hj,-⟩
        · have hj : isJoin F F.graph.entry = false := by simp [isJoin,preds_entry hF]
          simp [arrived,hj,preds_entry hF]
        · rw [arrived,arrived,if_pos hj,if_pos hj]
          rfl
      · have hentry : ((P.take F c rest).enter c st).entry c' = P.entry c' := update_of_ne hcc _ _
        rw [arrived,hentry]
        rfl
    rw [hsame]

end tally

structure Contents (F : IrFunction ctx) (P : Pass) : Prop where
  known : ∀ b e, P.entry b = some e → Known F e
  start : ∀ e, P.entry F.graph.entry = some e → e = fun _ => none
  buck : ∀ c b st, (b,st) ∈ P.stateBuck c → ∃ e, P.entry b = some e ∧ st = outState F b e
  single : ∀ b c e, isJoin F c = false → c ∈ F.graph.succs b → P.entry c = some e →
    ∃ e', P.entry b = some e' ∧ e = outState F b e'
  joined : ∀ c e, isJoin F c = true → P.entry c = some e →
    e = mergeState ((P.stateBuck c).map Prod.snd) ∧
      ∀ b st, (b,st) ∈ P.stateBuck c → ∀ s ∈ missing F e st, s ∈ P.preload b
  preload : ∀ b s, s ∈ P.preload b → ∃ e, P.entry b = some e ∧ outState F b e s = none

section contents
variable {F : IrFunction ctx} {P : Pass} {b c : Nat}

theorem Contents.arrive (h : Contents F P) (hnone : P.entry c = none) {e : StateMap}
    (he : P.entry b = some e) (k : Nat) : Contents F (P.arrive b (outState F b e) c k) := by
  constructor
  · exact h.known
  · exact h.start
  · intro c' b' st hmem
    by_cases hcc : c' = c
    · subst hcc
      simp only [Pass.arrive,update_self,mem_append,mem_singleton,Prod.mk.injEq] at hmem
      rcases hmem with hold | ⟨rfl,rfl⟩
      · exact h.buck c' b' st hold
      · exact ⟨e,he,rfl⟩
    · simp only [Pass.arrive,update_of_ne hcc] at hmem
      exact h.buck c' b' st hmem
  · exact h.single
  · intro c' e' hj he'
    have hcc : c' ≠ c := by
      rintro rfl
      simp [Pass.arrive,hnone] at he'
    have hbucket : (P.arrive b (outState F b e) c k).stateBuck c' = P.stateBuck c' :=
      update_of_ne hcc _ _
    rw [hbucket]
    exact h.joined c' e' hj he'
  · exact h.preload

theorem Contents.enter {P' : Pass} {st : StateMap} (h : Contents F P) (hnone : P.entry c = none)
    (hentry : P'.entry = update P.entry c (some st)) (hbucket : P'.stateBuck = P.stateBuck)
    (hkeep : ∀ b s, s ∈ P.preload b → s ∈ P'.preload b) (hnew : ∀ b s, s ∈ P'.preload b →
      s ∈ P.preload b ∨ ∃ e, P.entry b = some e ∧ outState F b e s = none) (hknown : Known F st)
    (hstart : c = F.graph.entry → st = fun _ => none)
    (hsingle : isJoin F c = false → ∀ b, c ∈ F.graph.succs b →
      ∃ e, P.entry b = some e ∧ st = outState F b e)
    (hjoined : isJoin F c = true → st = mergeState ((P.stateBuck c).map Prod.snd) ∧
      ∀ b sm, (b,sm) ∈ P.stateBuck c → ∀ s ∈ missing F st sm, s ∈ P'.preload b) :
    Contents F P' := by
  have hold : ∀ b e, P.entry b = some e → P'.entry b = some e := by
    intro b e he
    have hne : b ≠ c := by
      rintro rfl
      simp [hnone] at he
    rw [hentry,update_of_ne hne,he]
  have hcases : ∀ b e, P'.entry b = some e → (b = c ∧ e = st) ∨ P.entry b = some e := by
    intro b e he
    rw [hentry] at he
    by_cases hb : b = c
    · subst hb
      rw [update_self,some.injEq] at he
      exact .inl ⟨rfl,he.symm⟩
    · rw [update_of_ne hb] at he
      exact .inr he
  constructor
  · intro b e he
    rcases hcases b e he with ⟨rfl,rfl⟩ | hb
    · exact hknown
    · exact h.known b e hb
  · intro e he
    rcases hcases _ e he with ⟨heq,rfl⟩ | hb
    · exact hstart heq.symm
    · exact h.start e hb
  · intro c' b st' hmem
    rw [hbucket] at hmem
    obtain ⟨e,he,heq⟩ := h.buck c' b st' hmem
    exact ⟨e,hold b e he,heq⟩
  · intro b c' e hj hsucc he
    have hpred : ∃ e', P.entry b = some e' ∧ e = outState F b e' := by
      rcases hcases c' e he with ⟨rfl,rfl⟩ | hb
      · exact hsingle hj b hsucc
      · exact h.single b c' e hj hsucc hb
    obtain ⟨e',he',heq⟩ := hpred
    exact ⟨e',hold b e' he',heq⟩
  · intro c' e hj he
    rw [hbucket]
    rcases hcases c' e he with ⟨rfl,rfl⟩ | hb
    · exact hjoined hj
    · obtain ⟨heq,hpre⟩ := h.joined c' e hj hb
      exact ⟨heq,fun b sm hmem s hs => hkeep b s (hpre b sm hmem s hs)⟩
  · intro b s hs
    have hpred : ∃ e, P.entry b = some e ∧ outState F b e s = none := by
      rcases hnew b s hs with hpre | hpre
      · exact h.preload b s hpre
      · exact hpre
    obtain ⟨e,he,heq⟩ := hpred
    exact ⟨e,hold b e he,heq⟩

theorem mem_addPreloads (F : IrFunction ctx) (merge : StateMap) (incoming : List (Nat × StateMap))
    (preload : Nat → List Nat) (b s : Nat) :
    s ∈ addPreloads F merge incoming preload b ↔
      s ∈ preload b ∨ ∃ sm, (b,sm) ∈ incoming ∧ s ∈ missing F merge sm := by
  unfold addPreloads
  induction incoming generalizing preload with
  | nil => simp
  | cons i incoming ih =>
    rw [foldl_cons,ih]
    obtain ⟨b',sm'⟩ := i
    by_cases hb : b = b'
    · subst hb
      simp only [update_self,mem_append,mem_cons,Prod.mk.injEq,true_and]
      constructor
      · rintro ((hold | hnew) | ⟨sm,hmem,hs⟩)
        · exact .inl hold
        · exact .inr ⟨sm',.inl rfl,hnew⟩
        · exact .inr ⟨sm,.inr hmem,hs⟩
      · rintro (hold | ⟨sm,rfl | hmem,hs⟩)
        · exact .inl (.inl hold)
        · exact .inl (.inr hs)
        · exact .inr ⟨sm,hmem,hs⟩
    · simp [hb]

end contents

structure Running (F : IrFunction ctx) (P : Pass) (edges : List (Nat × Nat)) : Prop where
  tally : Tally F P edges
  contents : Contents F P

def Extends (P P' : Pass) : Prop := ∀ b e, P.entry b = some e → P'.entry b = some e

section running
variable {F : IrFunction ctx} {P : Pass} {edges : List (Nat × Nat)} {b c : Nat}

theorem extends_enter (hnone : P.entry c = none) (st : StateMap) : Extends P (P.enter c st) := by
  intro b e he
  have hne : b ≠ c := by
    rintro rfl
    simp [hnone] at he
  simp [Pass.enter,update_of_ne hne,he]

variable {e : StateMap}

theorem Running.arrive (h : Running F P ((b,c) :: edges)) (hF : Acyclic F) (he : P.entry b = some e)
    {k : Nat} (hk : P.acyclicBB c = some k) : Running F (P.arrive b (outState F b e) c k) edges :=
  ⟨h.tally.arrive hF hk _,
    h.contents.arrive (h.tally.entry_none hF (h.tally.isJoin_of_some hk)) he k⟩

theorem Running.single (h : Running F P ((b,c) :: edges)) (hF : Acyclic F)
    (he : P.entry b = some e) (hk : P.acyclicBB c = none) :
    P.entry c = none ∧ Running F (P.enter c (outState F b e))
        ((F.graph.succs c).map (fun c' => (c,c')) ++ edges) := by
  have htally := h.tally.single hF hk (outState F b e)
  have hc := h.tally.isJoin_of_none hk
  refine ⟨htally.1,htally.2,?_⟩
  refine h.contents.enter htally.1 rfl rfl (fun _ _ hs => hs) (fun _ _ hs => .inl hs) ?_ ?_ ?_ ?_
  · exact (h.contents.known b e he).outState b
  · exact fun heq => absurd heq (h.tally.ne_entry hF)
  · intro _ b' hb'
    have hpreds := preds_eq_singleton hc h.tally.mem_succs.2
    rw [preds_eq_singleton hc hb',singleton_inj] at hpreds
    exact ⟨e,hpreds ▸ he,by rw [hpreds]⟩
  · exact fun hj => absurd hj (by simp [hc])

theorem Running.take (h : Running F P edges) (hF : Acyclic F) {rest : List Nat}
    (hwork : P.worklist = c :: rest) :
    P.entry c = none ∧
      Running F ((P.take F c rest).enter c (mergeState ((P.stateBuck c).map Prod.snd)))
        ((F.graph.succs c).map (fun c' => (c,c')) ++ edges) := by
  have htally := h.tally.take hF hwork (mergeState ((P.stateBuck c).map Prod.snd))
  refine ⟨htally.1,htally.2,?_⟩
  have hin := ((h.tally.work c).mp (hwork ▸ mem_cons_self)).1
  refine h.contents.enter htally.1 rfl rfl ?_ ?_ ?_ ?_ ?_ ?_
  · intro b s hs
    exact (mem_addPreloads F _ _ _ b s).mpr (.inl hs)
  · intro b s hs
    rcases (mem_addPreloads F _ _ _ b s).mp hs with hold | ⟨sm,hmem,hmissing⟩
    · exact .inl hold
    obtain ⟨e,he,rfl⟩ := h.contents.buck c b sm hmem
    have hs' := (mem_filter.mp hmissing).2
    rw [Bool.and_eq_true,isNone_iff_eq_none] at hs'
    exact .inr ⟨e,he,hs'.2⟩
  · apply Known.mergeState
    intro sm hsm
    obtain ⟨⟨b,sm'⟩,hmem,rfl⟩ := mem_map.mp hsm
    obtain ⟨e,he,rfl⟩ := h.contents.buck c b sm' hmem
    exact (h.contents.known b e he).outState b
  · rintro rfl
    have hj : isJoin F F.graph.entry = false := by simp [isJoin,preds_entry hF]
    rw [h.tally.plain F.graph.entry hj]
    rfl
  · intro hj b hb
    rcases hin with rfl | ⟨hjoin,-⟩
    · exact absurd hb (hF.entry_first b)
    · simp [hj] at hjoin
  · intro _
    refine ⟨rfl,fun b sm hmem s hs => ?_⟩
    exact (mem_addPreloads F _ _ _ b s).mpr (.inr ⟨sm,hmem,hs⟩)

/-- Mapping a block follows its edges, and the edges of every block mapped on the way; the
recursion is never deeper than the blocks are many. -/
theorem Running.mapState (hF : Acyclic F) {fuel : Nat} {st : StateMap}
    (h : Running F (P.enter b st) ((F.graph.succs b).map (fun c => (b,c)) ++ edges))
    (hb : b < F.blocks.length) (hfuel : F.blocks.length ≤ hF.rank b + fuel) :
    Running F (mapState F fuel b st P) edges ∧ Extends (P.enter b st) (mapState F fuel b st P) := by
  induction fuel generalizing b st P edges with
  | zero =>
    have := hF.rank_lt b hb
    omega
  | succ fuel ih =>
    have hfollow : ∀ (l : List Nat) (Q : Pass), (∀ c ∈ l, c ∈ F.graph.succs b) →
        Q.entry b = some st → Running F Q (l.map (fun c => (b,c)) ++ edges) →
        let Q' := l.foldl (fun P c =>
          match P.acyclicBB c with
          | some k => P.arrive b (outState F b st) c k
          | none => Worklist.mapState F fuel c (outState F b st) P) Q
        Running F Q' edges ∧ Extends Q Q' := by
      intro l
      induction l with
      | nil => exact fun Q _ _ hQ => ⟨hQ,fun _ _ he => he⟩
      | cons c l ihl =>
        intro Q hl hs hQ
        have hrest : ∀ c ∈ l, c ∈ F.graph.succs b := fun c' hc' => hl c' (mem_cons_of_mem c hc')
        rw [foldl_cons]
        cases hk : Q.acyclicBB c with
        | some k => exact ihl _ hrest hs (Running.arrive hQ hF hs hk)
        | none =>
          have hedge := hF.edge b c (hl c mem_cons_self)
          obtain ⟨hnone,henter⟩ := Running.single hQ hF hs hk
          obtain ⟨hrun,hext⟩ := ih henter hedge.1 (by omega)
          have hext' : Extends Q (Worklist.mapState F fuel c (outState F b st) Q) :=
            fun b' e he => hext b' e (extends_enter hnone _ b' e he)
          obtain ⟨hfinal,hlast⟩ := ihl _ hrest (hext' b st hs) hrun
          exact ⟨hfinal,fun b' e he => hlast b' e (hext' b' e he)⟩
    exact hfollow _ _ (fun _ hc => hc) (by simp [Pass.enter]) h

def unmapped (F : IrFunction ctx) (P : Pass) : Finset Nat :=
  (Finset.range F.blocks.length).filter fun b => P.entry b = none

theorem unmapped_card_lt {P' : Pass} (hext : Extends P P') (hb : b < F.blocks.length)
    (hnone : P.entry b = none) (hsome : P'.entry b ≠ none) :
    (unmapped F P').card < (unmapped F P).card := by
  apply Finset.card_lt_card
  rw [Finset.ssubset_iff_of_subset]
  · exact ⟨b,by simp [unmapped,hb,hnone],by simp [unmapped,hsome]⟩
  intro c hc
  simp only [unmapped,Finset.mem_filter] at hc ⊢
  refine ⟨hc.1,?_⟩
  by_contra hne
  obtain ⟨e,he⟩ := ne_none_iff_exists'.mp hne
  simp [hext c e he] at hc

theorem running_init (F : IrFunction ctx) : Running F (.init F) [] := by
  have hready : ∀ c, Ready F (.init F) c ↔ c = F.graph.entry := by
    intro c
    simp only [Ready,Pass.init,isJoin,decide_eq_true_eq,length_nil,or_iff_left_iff_imp]
    omega
  constructor
  · constructor
    · intro b c
      simp [arrived,Pass.init]
    · intro c
      simp [Pass.init]
    · intro c
      rw [hready]
      simp [Pass.init]
    · simp [Pass.init]
    · intro c _ hne
      simp [Pass.init] at hne
    · intro c _
      rfl
  · constructor <;> simp [Pass.init]

theorem lt_of_ready (hF : Acyclic F) (hready : Ready F P c) : c < F.blocks.length := by
  rcases hready with rfl | ⟨hj,-⟩
  · exact hF.entry_lt
  have hpos : 0 < (preds F c).length := by
    simp only [isJoin,decide_eq_true_eq] at hj
    omega
  obtain ⟨b,hb⟩ := exists_mem_of_length_pos hpos
  have hcount := count_pos_iff.mpr hb
  rw [count_preds] at hcount
  exact (hF.edge b c (count_pos_iff.mp hcount)).1

theorem Running.drain (hF : Acyclic F) {fuel : Nat} (h : Running F P [])
    (hfuel : (unmapped F P).card ≤ fuel) :
    Running F (drain F fuel P) [] ∧ (drain F fuel P).worklist = [] := by
  induction fuel generalizing P with
  | zero =>
    refine ⟨h,?_⟩
    apply eq_nil_iff_forall_not_mem.mpr
    intro c hc
    obtain ⟨hready,hnone⟩ := (h.tally.work c).mp hc
    have hmem : c ∈ unmapped F P := by
      simp [unmapped,lt_of_ready hF hready,hnone]
    have hpos := Finset.card_pos.mpr ⟨c,hmem⟩
    omega
  | succ fuel ih =>
    unfold Worklist.drain
    cases hwork : P.worklist with
    | nil => exact ⟨h,hwork⟩
    | cons c rest =>
      obtain ⟨hready,-⟩ := (h.tally.work c).mp (hwork ▸ mem_cons_self)
      have hc := lt_of_ready hF hready
      obtain ⟨hnone,htake⟩ := h.take hF hwork
      obtain ⟨hrun,hext⟩ := htake.mapState hF hc (Nat.le_add_left _ _)
      have hext' : Extends P _ := fun b e he => hext b e (extends_enter hnone _ b e he)
      have hself := hext c _ (update_self c _ _)
      have hlt := unmapped_card_lt (F := F) hext' hc hnone (by simp [hself])
      exact ih hrun (by omega)

theorem run_running (hF : Acyclic F) : Running F (run F) [] ∧ (run F).worklist = [] := by
  apply (running_init F).drain hF
  apply (Finset.card_filter_le _ _).trans
  simp

theorem Running.mapped (hF : Acyclic F) (h : Running F P []) (hwork : P.worklist = [])
    (hb : b < F.blocks.length) : P.entry b ≠ none := by
  have hready : ∀ b, Ready F P b → P.entry b ≠ none := by
    intro b hready hnone
    have hmem := (h.tally.work b).mpr ⟨hready,hnone⟩
    simp [hwork] at hmem
  induction hr : hF.rank b using Nat.strong_induction_on generalizing b with
  | _ r ih =>
    by_cases hentry : b = F.graph.entry
    · exact hready b (.inl hentry)
    · obtain ⟨p,hp⟩ := hF.pred b hb hentry
      have hpred : ∀ p, b ∈ F.graph.succs p → P.entry p ≠ none := by
        intro p hp
        have hlt : p < F.blocks.length := by
          by_contra hlt
          simp [succs_of_not_lt F hlt] at hp
        exact ih (hF.rank p) (hr ▸ (hF.edge p b hp).2) hlt rfl
      have hcount : ∀ p, (arrived F P b).count p = (preds F b).count p := by
        intro p
        have htally := h.tally.count p b
        rw [count_nil,Nat.add_zero] at htally
        rw [htally,count_preds]
        cases he : P.entry p with
        | some e => simp
        | none =>
          have hnot : b ∉ F.graph.succs p := fun hp => hpred p hp he
          simp [count_eq_zero_of_not_mem hnot]
      cases hj : isJoin F b with
      | true =>
        apply hready b
        refine .inr ⟨hj,?_⟩
        have hperm := perm_iff_count.mpr hcount
        rw [arrived,if_pos hj] at hperm
        simpa using hperm.length_eq
      | false =>
        intro hnone
        have hpos := count_pos_iff.mpr hp
        rw [← count_preds,← hcount,arrived,hj,hnone] at hpos
        simp at hpos

theorem Running.follows (h : Running F P []) {e' : StateMap} (hc : c ∈ F.graph.succs b)
    (he : P.entry b = some e) (he' : P.entry c = some e') :
    Follows F (outState F b e) (P.preload b) e' := by
  have hknown := h.contents.known c e' he'
  cases hj : isJoin F c with
  | false =>
    obtain ⟨e₀,he₀,rfl⟩ := h.contents.single b c e' hj hc he'
    rw [he,some.injEq] at he₀
    subst he₀
    exact ⟨hknown,fun _ hs => hs,fun _ hs => hs,fun _ hs hnone => absurd hnone hs⟩
  | true =>
    have hcount := h.tally.count b c
    rw [arrived,if_pos hj,he,count_nil,Nat.add_zero] at hcount
    have hpos : 0 < ((P.stateBuck c).map Prod.fst).count b := by
      rw [hcount]
      exact count_pos_iff.mpr hc
    obtain ⟨⟨b',st⟩,hmem,rfl⟩ := mem_map.mp (count_pos_iff.mp hpos)
    obtain ⟨e₀,he₀,rfl⟩ := h.contents.buck c b' st hmem
    rw [he,some.injEq] at he₀
    subst he₀
    obtain ⟨hmerge,hpreload⟩ := h.contents.joined c e' hj he'
    have hin : outState F b' e ∈ (P.stateBuck c).map Prod.snd := List.mem_map_of_mem hmem
    subst hmerge
    refine ⟨hknown,fun s => (mergeState_of_mem hin s).1,fun s => (mergeState_of_mem hin s).2,?_⟩
    intro s hs hnone
    apply hpreload b' _ hmem s
    apply mem_filter.mpr
    exact ⟨hknown s hs,by simp [isSome_iff_ne_none.mpr hs,hnone]⟩

end running

end Hqemu.Llvm.Worklist
