import Hqemu.Tcg.Ops

/-! `tcg_liveness_analysis`: a pass from the last op to the first. -/
namespace Hqemu.Tcg.Liveness

open Bool Function List

variable (ctx : Ctx)

abbrev Dead := Temp → Bool

/-- `tcg_la_bb_end`: globals and local temporaries are live, the others dead. -/
def tcgLaBbEnd : Dead := fun temp => !ctx.kept temp

def globalsLive (dead : Dead) : Dead := fun temp =>
  if temp < ctx.nbGlobals then false else dead temp

def killOutputs (oargs : List Temp) (dead : Dead) : Dead :=
  oargs.foldl (fun dead temp => Function.update dead temp true) dead

def useInputs : List (Option Temp) → Nat → Dead → Nat → Dead × Nat
  | [], _, dead, deadIargs => (dead,deadIargs)
  | none :: rest, i, dead, deadIargs => useInputs rest (i+1) dead deadIargs
  | some temp :: rest, i, dead, deadIargs =>
    useInputs rest (i+1) (Function.update dead temp false)
      (if dead temp then deadIargs ||| 1 <<< i else deadIargs)

def tcgSetNop (nbArgs : Nat) : Op := if nbArgs = 0 then .op .nop [] else .nopn nbArgs

structure Marked where
  op : Op
  deadIargs : Nat
deriving DecidableEq

/-- The inputs become live; `op_dead_iargs` has 16 bits. -/
def markInputs (op : Op) (dead : Dead) : Dead × Marked :=
  let (dead,deadIargs) := useInputs (op.iargs ctx) 0 dead 0
  (dead,⟨op,deadIargs%2^16⟩)

/-- One round of the loop: `dead` after the op, and before it. -/
def visit (op : Op) (dead : Dead) : Dead × Marked :=
  match op with
  | .call flags oargs iargs =>
    if isPure flags && oargs.all dead then
      (dead,⟨tcgSetNop (oargs.length+iargs.length+3),0⟩)
    else
      let dead := killOutputs oargs dead
      let dead := if isConst flags then dead else globalsLive ctx dead
      markInputs ctx op dead
  | .setLabel _ => (tcgLaBbEnd ctx,⟨op,0⟩)
  | .debugInsnStart _ => (dead,⟨op,0⟩)
  | .nopn _ => (dead,⟨op,0⟩)
  | .discard temp => (Function.update dead temp true,⟨op,0⟩)
  | .stop => (dead,⟨op,0⟩)
  | .op opcode args =>
    let d := ctx.def_ opcode
    let oargs := op.oargs ctx
    if !d.sideEffects && d.nbOargs != 0 && oargs.all dead then (dead,⟨tcgSetNop args.length,0⟩)
    else
      let dead := killOutputs oargs dead
      let dead := if d.bbEnd then tcgLaBbEnd ctx
        else if d.callClobber then globalsLive ctx dead else dead
      markInputs ctx op dead

/-- `tcg_liveness_analysis`: what is dead before the first op, and the new ops. -/
def tcgLivenessAnalysis : List Op → Dead × List Marked
  | [] => (fun _ => true,[])
  | op :: rest =>
    let (dead,marked) := tcgLivenessAnalysis rest
    let (dead,mark) := visit ctx op dead
    (dead,mark :: marked)

def optimized (program : List Op) : List Op := (tcgLivenessAnalysis ctx program).2.map (·.op)

variable {ctx}

theorem killOutputs_apply (oargs : List Temp) (dead : Dead) (temp : Temp) :
    killOutputs oargs dead temp = (dead temp || decide (temp ∈ oargs)) := by
  induction oargs generalizing dead with
  | nil => simp [killOutputs]
  | cons out rest ih =>
    rw [killOutputs,foldl_cons,← killOutputs,ih,update_apply]
    by_cases h : temp = out
    · simp [h]
    · simp [h]

theorem useInputs_dead (iargs : List (Option Temp)) (i : Nat) (dead : Dead) (deadIargs : Nat)
    (temp : Temp) :
    (useInputs iargs i dead deadIargs).1 temp = (dead temp && decide (some temp ∉ iargs)) := by
  induction iargs generalizing i dead deadIargs with
  | nil => simp [useInputs]
  | cons arg rest ih =>
    cases arg with
    | none => simp [useInputs,ih]
    | some input =>
      rw [useInputs,ih,update_apply]
      by_cases h : temp = input
      · simp [h]
      · simp [h]

variable {i : Nat} {dead : Dead}

theorem useInputs_bit {iargs : List (Option Temp)} {deadIargs k : Nat}
    (hbit : (useInputs iargs i dead deadIargs).2.testBit k = true) :
    deadIargs.testBit k = true ∨
      ∃ temp, i ≤ k ∧ iargs[k-i]? = some (some temp) ∧ dead temp = true := by
  induction iargs generalizing i dead deadIargs with
  | nil => exact .inl hbit
  | cons arg rest ih =>
    have hlater : ∀ {temp : Temp}, i+1 ≤ k → rest[k-(i+1)]? = some (some temp) →
        (arg :: rest)[k-i]? = some (some temp) := by
      intro temp hle hget
      have hsub : k-i = k-(i+1) + 1 := by omega
      rw [hsub,List.getElem?_cons_succ]
      exact hget
    cases arg with
    | none =>
      rcases ih hbit with hold | ⟨temp,hle,hget,hdead⟩
      · exact .inl hold
      · exact .inr ⟨temp,by omega,hlater hle hget,hdead⟩
    | some input =>
      rcases ih hbit with hold | ⟨temp,hle,hget,hdead⟩
      · split at hold
        · rename_i hinput
          rw [Nat.testBit_or,or_eq_true,Nat.one_shiftLeft] at hold
          rcases hold with hold | hself
          · exact .inl hold
          have hk : i = k := by simpa [Nat.testBit_two_pow] using hself
          subst hk
          exact .inr ⟨input,Nat.le_refl _,by simp,hinput⟩
        · exact .inl hold
      · rw [update_apply] at hdead
        split at hdead
        · cases hdead
        · exact .inr ⟨temp,by omega,hlater hle hget,hdead⟩

theorem markInputs_spec (op : Op) (dead : Dead) :
    (markInputs ctx op dead).2.op = op ∧
    (∀ temp, (markInputs ctx op dead).1 temp = (dead temp && decide (some temp ∉ op.iargs ctx))) ∧
    ∀ k, (markInputs ctx op dead).2.deadIargs.testBit k = true →
      ∃ temp, (op.iargs ctx)[k]? = some (some temp) ∧ dead temp = true := by
  refine ⟨rfl,fun temp => useInputs_dead _ _ _ _ temp,fun k hbit => ?_⟩
  have hbit : (useInputs (op.iargs ctx) 0 dead 0).2.testBit k = true := by
    have hmod : ((useInputs (op.iargs ctx) 0 dead 0).2 % 2^16).testBit k = true := hbit
    rw [Nat.testBit_mod_two_pow,and_eq_true] at hmod
    exact hmod.2
  rcases useInputs_bit hbit with hz | ⟨temp,-,hget,hdead⟩
  · simp at hz
  · exact ⟨temp,hget,hdead⟩

/-- An op that goes away if its outputs are dead. -/
def Removable (ctx : Ctx) : Op → Prop
  | .call flags _ _ => isPure flags = true
  | .op opcode _ => (ctx.def_ opcode).sideEffects = false ∧ (ctx.def_ opcode).nbOargs ≠ 0
  | _ => False

structure Stays (ctx : Ctx) (op : Op) (dead before : Dead) (mark : Marked) : Prop where
  op_eq : mark.op = op
  sees : op.unmarkedJump = false → ∀ temp, op.sees ctx temp = true → before temp = false
  pass : op.endsBlock ctx = false → ∀ temp, temp ∉ op.oargs ctx → dead temp = false →
    before temp = false
  bits : op.endsBlock ctx = false → ∀ k, mark.deadIargs.testBit k = true →
    ∃ temp, (op.iargs ctx)[k]? = some (some temp) ∧ (temp ∉ op.oargs ctx → dead temp = true)

variable {op : Op}

theorem stays_markInputs {after : Dead}
    (hsees : op.unmarkedJump = false → ∀ temp, op.sees ctx temp = true →
      some temp ∉ op.iargs ctx → after temp = false)
    (hafter : op.endsBlock ctx = false → ∀ temp, after temp = true →
      dead temp = true ∨ temp ∈ op.oargs ctx) :
    Stays ctx op dead (markInputs ctx op after).1 (markInputs ctx op after).2 := by
  obtain ⟨hop,hbefore,hbits⟩ := @markInputs_spec ctx op after
  refine ⟨hop,fun hmarked temp htemp => ?_,fun hblock temp hout hlive => ?_,fun hblock k hbit => ?_⟩
  · rw [hbefore]
    by_cases hinput : some temp ∈ op.iargs ctx
    · simp [hinput]
    · rw [hsees hmarked temp htemp hinput,Bool.false_and]
  · rw [hbefore]
    cases hdead : after temp with
    | false => rfl
    | true =>
      rcases hafter hblock temp hdead with hdead | hmem
      · rw [hlive] at hdead
        cases hdead
      · exact absurd hmem hout
  · obtain ⟨temp,hget,hdead⟩ := hbits k hbit
    exact ⟨temp,hget,fun hout => (hafter hblock temp hdead).resolve_right hout⟩

variable {temp : Temp}

theorem killOutputs_true {oargs : List Temp} (h : killOutputs oargs dead temp = true) :
    dead temp = true ∨ temp ∈ oargs := by
  rw [killOutputs_apply,or_eq_true,decide_eq_true_eq] at h
  exact h

theorem tcgLaBbEnd_false (h : temp < ctx.nbGlobals ∨ ctx.tempLocal temp = true) :
    tcgLaBbEnd ctx temp = false := by
  rcases h with h | h
  · simp [tcgLaBbEnd,Ctx.kept,h]
  · simp [tcgLaBbEnd,Ctx.kept,h]

theorem globalsLive_true (h : globalsLive ctx dead temp = true) : dead temp = true := by
  unfold globalsLive at h
  split at h
  · cases h
  · exact h

theorem visit_cases (op : Op) (dead : Dead) :
    (Removable ctx op ∧ (∀ temp ∈ op.oargs ctx, dead temp = true) ∧
      (visit ctx op dead).1 = dead ∧ ∃ nbArgs, (visit ctx op dead).2 = ⟨tcgSetNop nbArgs,0⟩) ∨
    Stays ctx op dead (visit ctx op dead).1 (visit ctx op dead).2 := by
  have hnobits : ∀ (op : Op) (k : Nat), (Marked.mk op 0).deadIargs.testBit k = true → False := by
    intro op k hbit
    simp at hbit
  cases op with
  | call flags oargs iargs =>
    simp only [visit]
    split
    · rename_i h
      rw [and_eq_true,List.all_eq_true] at h
      exact .inl ⟨h.1,h.2,rfl,_,rfl⟩
    · refine .inr (stays_markInputs (fun _ temp hsees hinput => ?_) fun _ temp hdead => ?_)
      · have hglobal : isConst flags = false ∧ temp < ctx.nbGlobals := by
          simpa [Op.sees,Op.seesGlobals,Op.seesLocals,hinput] using hsees
        rw [hglobal.1]
        simp [globalsLive,hglobal.2]
      · split at hdead
        · exact killOutputs_true hdead
        · exact killOutputs_true (globalsLive_true hdead)
  | setLabel label =>
    refine .inr ⟨rfl,fun _ temp hsees => ?_,nofun,nofun⟩
    have hkeep : temp < ctx.nbGlobals ∨ ctx.tempLocal temp = true := by
      simpa [Op.sees,Op.iargs,Op.seesGlobals,Op.seesLocals] using hsees
    exact tcgLaBbEnd_false hkeep
  | debugInsnStart args | nopn nbArgs | stop =>
    refine .inr ⟨rfl,fun _ temp hsees => ?_,fun _ _ _ h => h,fun _ k h => ?_⟩
    · simp [Op.sees,Op.iargs,Op.seesGlobals,Op.seesLocals] at hsees
    · exact (hnobits _ k h).elim
  | discard temp =>
    refine .inr ⟨rfl,fun _ other hsees => ?_,fun _ other hout h => ?_,fun _ k h => ?_⟩
    · simp [Op.sees,Op.iargs,Op.seesGlobals,Op.seesLocals] at hsees
    · have hne : other ≠ temp := fun heq => hout (by simp [Op.oargs,heq])
      simpa [visit,update_apply,hne] using h
    · exact (hnobits _ k h).elim
  | op opcode args =>
    simp only [visit]
    split
    · rename_i h
      simp only [and_eq_true,List.all_eq_true,not_eq_true',bne_iff_ne] at h
      exact .inl ⟨⟨h.1.1,h.1.2⟩,h.2,rfl,_,rfl⟩
    · refine .inr (stays_markInputs (fun hmarked temp hsees hinput => ?_) fun hblock temp hdead =>
          ?_)
      · have hmarked : opcode.unmarkedJump = false := hmarked
        simp only [Op.sees,hinput,Op.seesGlobals,Op.seesLocals,hmarked,decide_false,
          Bool.false_or,or_eq_true,and_eq_true,decide_eq_true_eq] at hsees
        split
        · rename_i hend
          have hkeep : temp < ctx.nbGlobals ∨ ctx.tempLocal temp = true := by
            rcases hsees with h | h
            · exact .inl h.2
            · exact .inr h.2
          exact tcgLaBbEnd_false hkeep
        · rename_i hend
          rcases hsees with ⟨hend' | hclobber,hglobal⟩ | ⟨hend',-⟩
          · exact absurd hend' hend
          · simp [hclobber,globalsLive,hglobal]
          · exact absurd hend' hend
      · have hblock : (ctx.def_ opcode).bbEnd = false := hblock
        rw [hblock] at hdead
        simp only [false_eq_true,if_false] at hdead
        split at hdead
        · exact killOutputs_true (globalsLive_true hdead)
        · exact killOutputs_true hdead

def transparent : Op → Bool
  | .debugInsnStart _ => true
  | .nopn _ => true
  | .op opcode _ => opcode.isNop || opcode.unmarkedJump
  | _ => false

/-- The jumps that are not marked stand at the head of their block, where `tb_gen_trace_stub`
puts them. -/
def jumpsAtHeads (ctx : Ctx) : Bool → List Op → Bool
  | _, [] => true
  | head, op :: rest =>
    (!op.unmarkedJump || head) &&
      jumpsAtHeads ctx (op.endsBlock ctx || (head && transparent op)) rest

/-- Some op of the block makes use of the value the temporary has now. -/
def readLater (ctx : Ctx) (temp : Temp) : List Op → Bool
  | [] => false
  | op :: rest =>
    op.sees ctx temp ||
      (!decide (temp ∈ op.oargs ctx) && !op.endsBlock ctx && readLater ctx temp rest)

theorem tcgSetNop_silent (nbArgs : Nat) (temp : Temp) :
    (tcgSetNop nbArgs).sees ctx temp = false ∧ (tcgSetNop nbArgs).oargs ctx = [] ∧
      (tcgSetNop nbArgs).endsBlock ctx = false := by
  unfold tcgSetNop
  split <;> exact ⟨rfl,rfl,rfl⟩

theorem Removable.ordinary {opcode : Opcode} (h : (ctx.def_ opcode).sideEffects = false ∧
      (ctx.def_ opcode).nbOargs ≠ 0) :
    opcode.isNop = false ∧ opcode.unmarkedJump = false ∧ (ctx.def_ opcode).bbEnd = false ∧
      (ctx.def_ opcode).callClobber = false := by
  cases opcode <;> simp_all [Ctx.def_,opDef,plainDef,endDef,storeDef,accessDef,Opcode.isNop,
      Opcode.unmarkedJump]

theorem Removable.endsBlock (h : Removable ctx op) : op.endsBlock ctx = false := by
  cases op with
  | op opcode args => exact (Removable.ordinary h).2.2.1
  | setLabel => exact h.elim
  | _ => rfl

theorem Removable.not_transparent (h : Removable ctx op) : transparent op = false := by
  cases op with
  | op opcode args =>
    obtain ⟨hnoop,hjump,-,-⟩ := Removable.ordinary h
    simp [transparent,hnoop,hjump]
  | call => rfl
  | _ => exact h.elim

variable {program : List Op}

theorem readLater_of_dead (hheads : jumpsAtHeads ctx false program = true)
    (hdead : (tcgLivenessAnalysis ctx program).1 temp = true) :
    readLater ctx temp (optimized ctx program) = false := by
  induction program with
  | nil => rfl
  | cons op rest ih =>
    simp only [jumpsAtHeads,and_eq_true,Bool.or_false,Bool.false_and,not_eq_true'] at hheads
    obtain ⟨hmarked,hheads⟩ := hheads
    have hdead : (visit ctx op (tcgLivenessAnalysis ctx rest).1).1 temp = true := hdead
    have hlist : optimized ctx (op :: rest) =
        (visit ctx op (tcgLivenessAnalysis ctx rest).1).2.op :: optimized ctx rest := rfl
    rw [hlist,readLater]
    rcases visit_cases op (tcgLivenessAnalysis ctx rest).1 with
      ⟨hremove,-,hsame,nbArgs,hnoop⟩ | hstay
    · obtain ⟨hsees,hoargs,hblock⟩ := @tcgSetNop_silent ctx nbArgs temp
      rw [hsame] at hdead
      rw [hremove.endsBlock] at hheads
      simp [hnoop,hsees,hoargs,hblock,ih hheads hdead]
    · rw [hstay.op_eq]
      have hsees : op.sees ctx temp = false := by
        cases hsees : op.sees ctx temp with
        | false => rfl
        | true => exact absurd (hstay.sees hmarked temp hsees) (by simp [hdead])
      rw [hsees,Bool.false_or]
      cases hblock : op.endsBlock ctx with
      | true => simp
      | false =>
        rw [hblock] at hheads
        by_cases hout : temp ∈ op.oargs ctx
        · simp [hout]
        have hafter : (tcgLivenessAnalysis ctx rest).1 temp = true := by
          cases hafter : (tcgLivenessAnalysis ctx rest).1 temp with
          | true => rfl
          | false => exact absurd (hstay.pass hblock temp hout hafter) (by simp [hdead])
        simp [ih hheads hafter]

theorem marked_getElem? (program : List Op) (i : Nat) :
    (tcgLivenessAnalysis ctx program).2[i]? = program[i]?.map fun op =>
      (visit ctx op (tcgLivenessAnalysis ctx (program.drop (i+1))).1).2 := by
  induction program generalizing i with
  | nil => rfl
  | cons op rest ih =>
    cases i with
    | zero => rfl
    | succ i => exact ih i

theorem optimized_drop (program : List Op) (i : Nat) :
    optimized ctx (program.drop i) = (optimized ctx program).drop i := by
  induction program generalizing i with
  | nil => simp [optimized,tcgLivenessAnalysis]
  | cons op rest ih =>
    cases i with
    | zero => rfl
    | succ i => exact ih i

theorem optimized_getElem? (program : List Op) (i : Nat) :
    (optimized ctx program)[i]? = program[i]?.map fun op =>
      (visit ctx op (tcgLivenessAnalysis ctx (program.drop (i+1))).1).2.op := by
  rw [optimized,List.getElem?_map,marked_getElem?,Option.map_map]
  rfl

theorem dead_drop (h : program[i]? = some op) :
    (tcgLivenessAnalysis ctx (program.drop i)).1 =
      (visit ctx op (tcgLivenessAnalysis ctx (program.drop (i+1))).1).1 := by
  obtain ⟨hi,rfl⟩ := List.getElem?_eq_some_iff.mp h
  rw [drop_eq_getElem_cons hi]
  rfl

def headAt (ctx : Ctx) : Bool → List Op → Nat → Bool
  | head, _, 0 => head
  | head, [], _+1 => head
  | head, op :: rest, i+1 => headAt ctx (op.endsBlock ctx || (head && transparent op)) rest i

theorem headAt_succ {head : Bool} (h : program[i]? = some op) :
    headAt ctx head program (i+1) =
      (op.endsBlock ctx || (headAt ctx head program i && transparent op)) := by
  induction program generalizing head i with
  | nil => simp at h
  | cons first rest ih =>
    cases i with
    | zero =>
      cases h
      simp [headAt]
    | succ i => exact ih h

theorem jumpsAtHeads_drop {head : Bool} (h : jumpsAtHeads ctx head program = true) (i : Nat) :
    jumpsAtHeads ctx (headAt ctx head program i) (program.drop i) = true := by
  induction program generalizing head i with
  | nil =>
    rw [drop_nil]
    rfl
  | cons op rest ih =>
    cases i with
    | zero => exact h
    | succ i =>
      rw [jumpsAtHeads,and_eq_true] at h
      exact ih h.2 i

theorem unmarkedJump_head (h : jumpsAtHeads ctx true program = true) (hop : program[i]? = some op)
    (hjump : op.unmarkedJump = true) : headAt ctx true program i = true := by
  have hdrop := jumpsAtHeads_drop h i
  obtain ⟨hi,rfl⟩ := List.getElem?_eq_some_iff.mp hop
  rw [drop_eq_getElem_cons hi,jumpsAtHeads,and_eq_true,hjump] at hdrop
  simpa using hdrop.1

theorem iargs_of_transparent (h : transparent op = true) : op.iargs ctx = [] := by
  cases op with
  | op opcode args =>
    have hnone : (ctx.def_ opcode).nbIargs = 0 := by
      cases opcode <;>
        simp_all [transparent,Opcode.isNop,Opcode.unmarkedJump,Ctx.def_,opDef,plainDef]
    simp [Op.iargs,hnone]
  | call => cases h
  | _ => rfl

theorem readLater_of_marked (hheads : jumpsAtHeads ctx true program = true) {k : Nat}
    {mark : Marked} (hmark : (tcgLivenessAnalysis ctx program).2[i]? = some mark)
    (hblock : mark.op.endsBlock ctx = false) (hbit : mark.deadIargs.testBit k = true) :
    ∃ temp, (mark.op.iargs ctx)[k]? = some (some temp) ∧
      (temp ∉ mark.op.oargs ctx →
        readLater ctx temp ((optimized ctx program).drop (i+1)) = false) := by
  rw [marked_getElem?,Option.map_eq_some_iff] at hmark
  obtain ⟨op,hop,rfl⟩ := hmark
  rcases visit_cases op (tcgLivenessAnalysis ctx (program.drop (i+1))).1 with
    ⟨-,-,-,nbArgs,hnoop⟩ | hstay
  · rw [hnoop] at hbit
    simp at hbit
  · rw [hstay.op_eq] at hblock ⊢
    obtain ⟨temp,hget,hdead⟩ := hstay.bits hblock k hbit
    refine ⟨temp,hget,fun hout => ?_⟩
    have htransparent : transparent op = false := by
      cases htransparent : transparent op with
      | false => rfl
      | true =>
        rw [iargs_of_transparent htransparent] at hget
        cases hget
    have hdrop := jumpsAtHeads_drop hheads (i+1)
    rw [headAt_succ hop,hblock,htransparent,Bool.and_false,Bool.or_false] at hdrop
    rw [← optimized_drop]
    exact readLater_of_dead hdrop (hdead hout)

section Simulation

variable {Val Mem : Type} {vals vals' : Temp → Val}

theorem inputs_eq {iargs : List (Option Temp)}
    (h : ∀ temp, some temp ∈ iargs → vals temp = vals' temp) :
    inputs vals iargs = inputs vals' iargs := by
  apply map_congr_left
  intro arg harg
  cases arg with
  | none => rfl
  | some temp => exact congrArg some (h temp harg)

theorem globals_eq (h : ∀ temp < ctx.nbGlobals, vals temp = vals' temp) :
    globals ctx vals = globals ctx vals' := by
  funext global
  exact h global.1 global.2.1

variable {temp : Temp}

theorem setGlobals_agree (values : ctx.Global → Val) (h : vals temp = vals' temp) :
    setGlobals vals values temp = setGlobals vals' values temp := by
  unfold setGlobals
  split
  · rfl
  · exact h

theorem assign_agree (values : Nat → Val) {oargs : List Temp} {k : Nat}
    (h : vals temp = vals' temp ∨ temp ∈ oargs) :
    assign vals values oargs k temp = assign vals' values oargs k temp := by
  induction oargs generalizing vals vals' k with
  | nil => simpa [assign] using h
  | cons out rest ih =>
    apply ih
    by_cases hout : temp = out
    · left
      rw [hout,update_self,update_self]
    · rw [update_of_ne hout,update_of_ne hout]
      exact h.imp_right fun hmem => (mem_cons.mp hmem).resolve_left hout

theorem assign_of_not_mem (values : Nat → Val) {oargs : List Temp} {k : Nat} (h : temp ∉ oargs) :
    assign vals values oargs k temp = vals temp := by
  induction oargs generalizing vals k with
  | nil => rfl
  | cons out rest ih =>
    have hne : temp ≠ out := fun heq => h (heq ▸ mem_cons_self)
    rw [assign,ih fun hmem => h (mem_cons_of_mem _ hmem),update_of_ne hne]

theorem destroy_eq (machine : Machine ctx Val Mem) (clock : Nat)
    (h : ∀ temp, temp < ctx.nbGlobals ∨ ctx.tempLocal temp = true → vals temp = vals' temp) :
    destroy machine clock vals = destroy machine clock vals' := by
  funext temp
  unfold destroy
  split
  · rename_i hkeep
    apply h
    simpa [Ctx.kept] using hkeep
  · rfl

def Both (ctx : Ctx) (P : State Val Mem → State Val Mem → Prop) :
    Outcome ctx Val Mem → Outcome ctx Val Mem → Prop
  | .running state, .running state' => P state state'
  | .left values mem, .left values' mem' => values = values' ∧ mem = mem'
  | .stuck, .stuck => True
  | _, _ => False

structure After (ctx : Ctx) (op : Op) (state state' next next' : State Val Mem) : Prop where
  pc : next.pc = next'.pc
  clock : next.clock = next'.clock
  mem : next.mem = next'.mem
  vals : ∀ temp, state.vals temp = state'.vals temp ∨ temp ∈ op.oargs ctx →
    next.vals temp = next'.vals temp
  block : op.endsBlock ctx = true → next.vals = next'.vals
  flow : next.pc = state.pc+1 ∨ op.endsBlock ctx = true ∨ op.unmarkedJump = true

variable {machine : Machine ctx Val Mem} {state state' : State Val Mem}

section

variable (hpc : state.pc = state'.pc) (hclock : state.clock = state'.clock)
  (hmem : state.mem = state'.mem)

include hpc hclock

variable {op : Op}

theorem both_advance {mem : Mem}
    (hvals : ∀ temp, state.vals temp = state'.vals temp ∨ temp ∈ op.oargs ctx →
      vals temp = vals' temp) (hblock : op.endsBlock ctx = true → vals = vals') :
    Both ctx (After ctx op state state') (.running (state.advance vals mem))
      (.running (state'.advance vals' mem)) :=
  ⟨congrArg (· + 1) hpc,congrArg (· + 1) hclock,rfl,hvals,hblock,.inl rfl⟩

variable {program program' : List Op}

theorem both_follow {mem : Mem} {flow : Flow}
    (hlabels : ∀ label, labelIndex program label = labelIndex program' label)
    (hvals : ∀ temp, state.vals temp = state'.vals temp ∨ temp ∈ op.oargs ctx →
      vals temp = vals' temp) (hblock : op.endsBlock ctx = true → vals = vals')
    (hglobals : globals ctx vals = globals ctx vals')
    (hjump : op.endsBlock ctx = true ∨ op.unmarkedJump = true) :
    Both ctx (After ctx op state state') (state.follow ctx program flow vals mem)
      (state'.follow ctx program' flow vals' mem) := by
  cases flow with
  | next => exact both_advance hpc hclock hvals hblock
  | leave => exact ⟨hglobals,rfl⟩
  | label label =>
    simp only [State.follow,← hlabels label]
    cases labelIndex program label with
    | none => trivial
    | some pc => exact ⟨rfl,congrArg (· + 1) hclock,rfl,hvals,hblock,.inr hjump⟩

theorem both_finish (hblock : op.endsBlock ctx = false)
    (result : Option (Nat → Val) × (ctx.Global → Val) × Mem) :
    Both ctx (After ctx op state state') (state.finish (op.oargs ctx) result)
      (state'.finish (op.oargs ctx) result) := by
  obtain ⟨outs,values,mem⟩ := result
  cases outs with
  | none => exact ⟨rfl,rfl⟩
  | some outs =>
    refine both_advance hpc hclock (fun temp h => assign_agree outs ?_) fun h => ?_
    · exact h.imp_left (setGlobals_agree values)
    · rw [hblock] at h
      cases h

include hmem

theorem both_call {flags : Nat} {oargs : List Temp} {iargs : List (Option Temp)}
    (hsees : ∀ temp, (Op.call flags oargs iargs).sees ctx temp = true →
      state.vals temp = state'.vals temp) :
    Both ctx (After ctx (.call flags oargs iargs) state state')
      (execCall machine state flags oargs iargs) (execCall machine state' flags oargs iargs) := by
  have hins : inputs state.vals iargs = inputs state'.vals iargs := by
    apply inputs_eq
    intro temp htemp
    apply hsees
    simp [Op.sees,Op.iargs,htemp]
  have hglobals : isConst flags = false → globals ctx state.vals = globals ctx state'.vals := by
    intro hconst
    apply globals_eq
    intro temp htemp
    apply hsees
    simp [Op.sees,Op.seesGlobals,hconst,htemp]
  have hassign : ∀ (outs : Nat → Val) (mem : Mem),
      Both ctx (After ctx (.call flags oargs iargs) state state')
        (.running (state.advance (assign state.vals outs oargs 0) mem))
        (.running (state'.advance (assign state'.vals outs oargs 0) mem)) := by
    intro outs mem
    exact both_advance hpc hclock (fun temp h => assign_agree outs h) nofun
  unfold execCall
  simp only [hins,hmem]
  split
  · split
    · exact hassign _ _
    · rename_i hconst
      rw [hglobals (by simpa using hconst)]
      exact hassign _ _
  · split
    · exact hassign _ _
    · rename_i hconst
      rw [hglobals (by simpa using hconst)]
      have hfinish := both_finish hpc hclock (show (Op.call flags oargs iargs).endsBlock ctx = false
        from rfl)
      exact hfinish _

section

variable (hlabels : ∀ label, labelIndex program label = labelIndex program' label)
include hlabels

theorem both_op {opcode : Opcode} {args : List Nat}
    (hsees : ∀ temp, (Op.op opcode args).sees ctx temp = true →
      state.vals temp = state'.vals temp) :
    Both ctx (After ctx (.op opcode args) state state')
      (execOp machine program state opcode args) (execOp machine program' state' opcode args) := by
  have hins : inputs state.vals ((Op.op opcode args).iargs ctx) =
      inputs state'.vals ((Op.op opcode args).iargs ctx) := by
    apply inputs_eq
    intro temp htemp
    apply hsees
    simp [Op.sees,htemp]
  have hglobals : (Op.op opcode args).seesGlobals ctx = true →
      globals ctx state.vals = globals ctx state'.vals := by
    intro hsee
    apply globals_eq
    intro temp htemp
    apply hsees
    simp [Op.sees,hsee,htemp]
  have hassign : (Op.op opcode args).endsBlock ctx = false → ∀ (outs : Nat → Val) (mem : Mem),
      Both ctx (After ctx (.op opcode args) state state')
        (.running (state.advance (assign state.vals outs ((Op.op opcode args).oargs ctx) 0) mem))
        (.running
          (state'.advance (assign state'.vals outs ((Op.op opcode args).oargs ctx) 0) mem)) := by
    intro hblock outs mem
    refine both_advance hpc hclock (fun temp h => assign_agree outs h) fun h => ?_
    rw [hblock] at h
    cases h
  have hjumps : ∀ {opcode : Opcode}, opcode.isNop = true ∨ opcode.unmarkedJump = true →
      (ctx.def_ opcode).bbEnd = false ∧ (ctx.def_ opcode).nbOargs = 0 := by
    intro opcode h
    cases opcode <;> simp_all [Opcode.isNop,Opcode.unmarkedJump,Ctx.def_,opDef,plainDef]
  have hkeep : (ctx.def_ opcode).nbOargs = 0 → ∀ temp,
      state.vals temp = state'.vals temp ∨ temp ∈ (Op.op opcode args).oargs ctx →
        state.vals temp = state'.vals temp := by
    intro hnone temp h
    simpa [Op.oargs,hnone] using h
  unfold execOp
  simp only [hins,hmem]
  split
  · rename_i hnoop
    obtain ⟨hblock,hnone⟩ := hjumps (.inl hnoop)
    refine both_advance hpc hclock (hkeep hnone) fun h => ?_
    rw [show (Op.op opcode args).endsBlock ctx = false from hblock] at h
    cases h
  · split
    · rename_i hjump
      obtain ⟨hblock,hnone⟩ := hjumps (.inr hjump)
      have hsee := hglobals (by simp [Op.seesGlobals,hjump])
      rw [hsee]
      refine both_follow hpc hclock hlabels (hkeep hnone) (fun h => ?_) hsee (.inr hjump)
      rw [show (Op.op opcode args).endsBlock ctx = false from hblock] at h
      cases h
    · split
      · rename_i hend
        rw [hglobals (by simp [Op.seesGlobals,hend]),hclock]
        have hvals : ∀ values : ctx.Global → Val,
            destroy machine state'.clock (setGlobals state.vals values) =
              destroy machine state'.clock (setGlobals state'.vals values) := by
          intro values
          apply destroy_eq
          intro temp hkept
          apply setGlobals_agree
          apply hsees
          rcases hkept with h | h
          · simp [Op.sees,Op.seesGlobals,hend,h]
          · simp [Op.sees,Op.seesLocals,hend,h]
        rw [hvals]
        exact both_follow hpc hclock hlabels (fun _ _ => rfl) (fun _ => rfl) rfl (.inl hend)
      · rename_i hend
        have hblock : (Op.op opcode args).endsBlock ctx = false := by
          simpa [Op.endsBlock] using hend
        split
        · rename_i hclobber
          rw [hglobals (by simp [Op.seesGlobals,hclobber])]
          exact both_finish hpc hclock hblock _
        · split
          · exact hassign hblock _ _
          · exact hassign hblock _ _

theorem both_exec (hsees : ∀ temp, op.sees ctx temp = true → state.vals temp = state'.vals temp) :
    Both ctx (After ctx op state state') (exec machine program state op)
      (exec machine program' state' op) := by
  cases op with
  | call flags oargs iargs => exact both_call hpc hclock hmem hsees
  | setLabel label =>
    simp only [exec,hmem,hclock]
    have hvals : destroy machine state'.clock state.vals =
        destroy machine state'.clock state'.vals := by
      apply destroy_eq
      intro temp hkeep
      apply hsees
      simpa [Op.sees,Op.iargs,Op.seesGlobals,Op.seesLocals] using hkeep
    rw [hvals]
    exact both_advance hpc hclock (fun _ _ => rfl) fun _ => rfl
  | debugInsnStart args | nopn nbArgs =>
    simp only [exec,hmem]
    exact both_advance hpc hclock (fun temp h => h.resolve_right (by simp [Op.oargs])) nofun
  | discard temp =>
    simp only [exec,hmem,hclock]
    refine both_advance hpc hclock (fun other h => ?_) nofun
    by_cases hother : other = temp
    · rw [hother,update_self,update_self]
    · rw [update_of_ne hother,update_of_ne hother]
      exact h.resolve_right (by simpa [Op.oargs] using hother)
  | stop => trivial
  | op opcode args => exact both_op hpc hclock hmem hlabels hsees

end

end

variable {program : List Op} {op : Op}

theorem exec_removable (h : Removable ctx op) :
    ∃ outs, exec machine program state op =
      .running (state.advance (assign state.vals outs (op.oargs ctx) 0) state.mem) := by
  cases op with
  | call flags oargs iargs =>
    have hpure : isPure flags = true := h
    exact ⟨_,by simp only [exec,execCall,hpure,if_true]; rfl⟩
  | op opcode args =>
    obtain ⟨hnoop,hjump,hend,hclobber⟩ := Removable.ordinary h
    refine ⟨machine.compute opcode ((Op.op opcode args).cargs ctx)
      (inputs state.vals ((Op.op opcode args).iargs ctx)) state.mem,?_⟩
    simp [exec,execOp,hnoop,hjump,hend,hclobber,h.1,h.2]
  | _ => exact h.elim

theorem exec_tcgSetNop (program : List Op) (nbArgs : Nat) :
    exec machine program state (tcgSetNop nbArgs) =
      .running (state.advance state.vals state.mem) := by
  unfold tcgSetNop
  split <;> rfl

theorem labelIndex_optimized (program : List Op) (label : Nat) :
    labelIndex (optimized ctx program) label = labelIndex program label := by
  induction program with
  | nil => rfl
  | cons op rest ih =>
    have hlist : optimized ctx (op :: rest) =
        (visit ctx op (tcgLivenessAnalysis ctx rest).1).2.op :: optimized ctx rest := rfl
    have hsame : (visit ctx op (tcgLivenessAnalysis ctx rest).1).2.op = .setLabel label ↔
        op = .setLabel label := by
      rcases visit_cases op (tcgLivenessAnalysis ctx rest).1 with
        ⟨hremove,-,-,nbArgs,hnoop⟩ | hstay
      · rw [hnoop]
        constructor
        · intro h
          unfold tcgSetNop at h
          split at h <;> cases h
        · intro h
          rw [h] at hremove
          exact hremove.elim
      · rw [hstay.op_eq]
    unfold labelIndex at ih ⊢
    rw [hlist,List.findIdx?_cons,List.findIdx?_cons,ih]
    simp [hsame]

structure Rel (ctx : Ctx) (program : List Op) (state state' : State Val Mem) : Prop where
  pc : state.pc = state'.pc
  clock : state.clock = state'.clock
  mem : state.mem = state'.mem
  live : ∀ temp, (tcgLivenessAnalysis ctx (program.drop state.pc)).1 temp = false →
    state.vals temp = state'.vals temp
  head : headAt ctx true program state.pc = true → state.vals = state'.vals

theorem Rel.sees (hheads : jumpsAtHeads ctx true program = true) (h : Rel ctx program state state')
    (hop : program[state.pc]? = some op) {mark : Marked}
    (hstay : Stays ctx op dead (tcgLivenessAnalysis ctx (program.drop state.pc)).1 mark)
    (hsees : op.sees ctx temp = true) : state.vals temp = state'.vals temp := by
  cases hjump : op.unmarkedJump with
  | true => rw [h.head (unmarkedJump_head hheads hop hjump)]
  | false => exact h.live temp (hstay.sees hjump temp hsees)

theorem Rel.of_eq (hpc : state.pc = state'.pc) (hclock : state.clock = state'.clock)
    (hmem : state.mem = state'.mem) (hvals : state.vals = state'.vals) :
    Rel ctx program state state' :=
  ⟨hpc,hclock,hmem,fun temp _ => congrFun hvals temp,fun _ => hvals⟩

theorem Rel.after (hheads : jumpsAtHeads ctx true program = true) (h : Rel ctx program state state')
    (hop : program[state.pc]? = some op) {mark : Marked} (hstay : Stays ctx op
      (tcgLivenessAnalysis ctx (program.drop (state.pc+1))).1
      (tcgLivenessAnalysis ctx (program.drop state.pc)).1 mark) {next next' : State Val Mem}
    (hafter : After ctx op state state' next next') : Rel ctx program next next' := by
  have hsame : state.vals = state'.vals → next.vals = next'.vals := by
    intro hvals
    funext temp
    exact hafter.vals temp (.inl (congrFun hvals temp))
  cases hblock : op.endsBlock ctx with
  | true => exact .of_eq hafter.pc hafter.clock hafter.mem (hafter.block hblock)
  | false =>
    cases hjump : op.unmarkedJump with
    | true =>
      exact .of_eq hafter.pc hafter.clock hafter.mem (hsame (h.head (unmarkedJump_head hheads hop
          hjump)))
    | false =>
      have hnext : next.pc = state.pc+1 := by
        rcases hafter.flow with h | h | h
        · exact h
        · simp [hblock] at h
        · simp [hjump] at h
      refine ⟨hafter.pc,hafter.clock,hafter.mem,fun temp hlive => ?_,fun hhead => ?_⟩
      · rw [hnext] at hlive
        apply hafter.vals
        by_cases hout : temp ∈ op.oargs ctx
        · exact .inr hout
        · exact .inl (h.live temp (hstay.pass hblock temp hout hlive))
      · rw [hnext,headAt_succ hop,hblock,Bool.false_or,and_eq_true] at hhead
        exact hsame (h.head hhead.1)

theorem Both.imp {P Q : State Val Mem → State Val Mem → Prop}
    (himp : ∀ next next', P next next' → Q next next') {outcome outcome' : Outcome ctx Val Mem}
    (h : Both ctx P outcome outcome') : Both ctx Q outcome outcome' := by
  cases outcome with
  | running next =>
    cases outcome' with
    | running next' => exact himp next next' h
    | _ => exact h
  | left values mem | stuck =>
    cases outcome' with
    | _ => exact h

theorem Rel.removed (h : Rel ctx program state state') (hop : program[state.pc]? = some op)
    (hremove : Removable ctx op) (hdead : ∀ temp ∈ op.oargs ctx,
      (tcgLivenessAnalysis ctx (program.drop (state.pc+1))).1 temp = true)
    (hsame : (tcgLivenessAnalysis ctx (program.drop state.pc)).1 =
      (tcgLivenessAnalysis ctx (program.drop (state.pc+1))).1) (outs : Nat → Val) :
    Rel ctx program (state.advance (assign state.vals outs (op.oargs ctx) 0) state.mem)
      (state'.advance state'.vals state'.mem) := by
  refine ⟨congrArg (· + 1) h.pc,congrArg (· + 1) h.clock,h.mem,fun temp hlive => ?_,fun hhead => ?_⟩
  · have hlive : (tcgLivenessAnalysis ctx (program.drop (state.pc+1))).1 temp = false := hlive
    have hout : temp ∉ op.oargs ctx := by
      intro hmem
      rw [hdead temp hmem] at hlive
      cases hlive
    exact (assign_of_not_mem outs hout).trans (h.live temp (hsame ▸ hlive))
  · have hhead : headAt ctx true program (state.pc+1) = true := hhead
    rw [headAt_succ hop,hremove.endsBlock,hremove.not_transparent,Bool.and_false] at hhead
    cases hhead

section

variable (hheads : jumpsAtHeads ctx true program = true)
include hheads

theorem Rel.step (h : Rel ctx program state state') :
    Both ctx (Rel ctx program) (step machine program state)
      (step machine (optimized ctx program) state') := by
  unfold Tcg.step
  rw [← h.pc,optimized_getElem?]
  cases hop : program[state.pc]? with
  | none => trivial
  | some op =>
    simp only [Option.map_some]
    rcases visit_cases op (tcgLivenessAnalysis ctx (program.drop (state.pc+1))).1 with
      ⟨hremove,hdead,hsame,nbArgs,hnoop⟩ | hstay
    · obtain ⟨outs,hexec⟩ := @exec_removable ctx Val Mem machine state program op hremove
      rw [hexec,hnoop,exec_tcgSetNop]
      exact h.removed hop hremove hdead ((dead_drop hop).trans hsame) outs
    · rw [← dead_drop hop] at hstay
      rw [hstay.op_eq]
      exact (both_exec h.pc h.clock h.mem (fun label => (labelIndex_optimized program label).symm)
        fun temp hsees => h.sees hheads hop hstay hsees).imp fun next next' =>
          h.after hheads hop hstay

theorem Rel.run (h : Rel ctx program state state') (n : Nat) :
    Both ctx (Rel ctx program) (run machine program n state)
      (run machine (optimized ctx program) n state') := by
  induction n generalizing state state' with
  | zero => exact h
  | succ n ih =>
    have hs : Both ctx (Rel ctx program) (Tcg.step machine program state)
        (Tcg.step machine (optimized ctx program) state') := h.step hheads
    unfold Tcg.run
    cases hleft : Tcg.step machine program state with
    | running next =>
      cases hright : Tcg.step machine (optimized ctx program) state' with
      | running next' =>
        rw [hleft,hright] at hs
        exact ih hs
      | _ => simp [hleft,hright,Both] at hs
    | left values mem =>
      cases hright : Tcg.step machine (optimized ctx program) state' with
      | left values' mem' =>
        rw [hleft,hright] at hs
        exact hs
      | _ => simp [hleft,hright,Both] at hs
    | stuck =>
      cases hright : Tcg.step machine (optimized ctx program) state' with
      | stuck => trivial
      | _ => simp [hleft,hright,Both] at hs

/-- Two runs are at the same op, with the same memory, and all temporaries whose values the op
can make use of have the same values. -/
structure Observed (ctx : Ctx) (program : List Op) (state state' : State Val Mem) : Prop where
  pc : state.pc = state'.pc
  mem : state.mem = state'.mem
  vals : ∀ op, program[state.pc]? = some op → ∀ temp, op.sees ctx temp = true →
    state.vals temp = state'.vals temp

theorem Rel.observed (h : Rel ctx program state state') :
    Observed ctx (optimized ctx program) state state' := by
  refine ⟨h.pc,h.mem,fun op' hop' temp hsees => ?_⟩
  rw [optimized_getElem?,Option.map_eq_some_iff] at hop'
  obtain ⟨op,hop,rfl⟩ := hop'
  rcases visit_cases op (tcgLivenessAnalysis ctx (program.drop (state.pc+1))).1 with
    ⟨-,-,-,nbArgs,hnoop⟩ | hstay
  · rw [hnoop,(tcgSetNop_silent nbArgs temp).1] at hsees
    cases hsees
  · rw [hstay.op_eq] at hsees
    exact h.sees hheads hop (dead_drop hop ▸ hstay) hsees

end

end Simulation

/-- Whenever the optimized sequence comes to an op, the original one is there with the same values.
A dead input has a value that no later op uses. -/
theorem liveness_preserves {Val Mem : Type} (ctx : Ctx) (program : List Op)
    (hheads : jumpsAtHeads ctx true program = true) (machine : Machine ctx Val Mem) :
    (∀ n state, Both ctx (Observed ctx (optimized ctx program)) (run machine program n state)
      (run machine (optimized ctx program) n state)) ∧
    ∀ i k mark, (tcgLivenessAnalysis ctx program).2[i]? = some mark →
      mark.op.endsBlock ctx = false → mark.deadIargs.testBit k = true →
      ∃ temp, (mark.op.iargs ctx)[k]? = some (some temp) ∧
        (temp ∉ mark.op.oargs ctx →
          readLater ctx temp ((optimized ctx program).drop (i + 1)) = false) := by
  refine ⟨fun n state => ?_,fun i k mark hmark hblock hbit =>
    readLater_of_marked hheads hmark hblock hbit⟩
  have hsame : Rel ctx program state state := .of_eq rfl rfl rfl rfl
  exact (hsame.run hheads n).imp fun next next' h => h.observed hheads

def smallCtx : Ctx where
  sizes := ⟨true,true⟩
  nbGlobals := 1
  fixedReg := fun _ => false
  tempLocal := fun temp => temp = 1

def smallMachine : Machine smallCtx Nat Unit where
  compute := fun _ cargs _ _ _ => cargs.headD 0
  effect := fun _ _ _ _ => (fun _ => 0,())
  access := fun _ _ _ values _ => (some fun _ => 0,values,())
  branch := fun _ _ _ values _ => (.leave,values,())
  patched := fun _ cargs _ _ => .label (cargs.headD 0)
  callPureConst := fun _ _ _ => 0
  callPure := fun _ _ _ _ => 0
  callConst := fun _ _ => (fun _ => 0,())
  call := fun _ values _ => (some fun _ => 0,values,())
  destroyed := fun _ _ => 0

def smallState : State Nat Unit := ⟨0,0,fun _ => 0,()⟩

def stubProgram : List Op :=
  [.op .patch [0],.setLabel 0,.op (.movi .i64) [2,5],.op (.movi .i64) [2,7],
    .call 0 [] [some 1,some 2],.op .exitTb [0]]

theorem liveness_preserves_stub :
    Both smallCtx (Observed smallCtx (optimized smallCtx stubProgram))
      (run smallMachine stubProgram 4 smallState)
      (run smallMachine (optimized smallCtx stubProgram) 4 smallState) ∧
    (optimized smallCtx stubProgram)[2]? ≠ stubProgram[2]? ∧
    ∃ temp, ((Op.call 0 [] [some 1, some 2]).iargs smallCtx)[1]? = some (some temp) ∧
      (temp ∉ (Op.call 0 [] [some 1, some 2]).oargs smallCtx →
        readLater smallCtx temp ((optimized smallCtx stubProgram).drop 5) = false) :=
  have h := liveness_preserves smallCtx stubProgram (by decide) smallMachine
  ⟨h.1 4 smallState,by decide,
    h.2 4 1 ⟨.call 0 [] [some 1,some 2],2⟩ (by decide) (by decide) (by decide)⟩

def localProgram : List Op :=
  [.op (.movi .i64) [1,1],.op (.movi .i64) [2,7],.call 0 [] [some 2],
    .op (.movi .i64) [1,2],.op .exitTb [0]]

def jumpProgram : List Op :=
  [.op (.movi .i64) [0,1],.op .patch [0],.op (.movi .i64) [0,2],.setLabel 0,
    .op .exitTb [0]]

theorem values_differ :
    (∃ state state', run smallMachine localProgram 2 smallState = .running state ∧
      run smallMachine (optimized smallCtx localProgram) 2 smallState = .running state' ∧
      localProgram[state.pc]? = some (.call 0 [] [some 2]) ∧ state.vals 1 = 1 ∧
      state'.vals 1 = 0) ∧
    ∃ values values', run smallMachine jumpProgram 4 smallState = .left values () ∧
      run smallMachine (optimized smallCtx jumpProgram) 4 smallState = .left values' () ∧
      values ⟨0, by decide⟩ = 1 ∧ values' ⟨0, by decide⟩ = 0 :=
  ⟨⟨_,_,rfl,rfl,rfl,rfl,rfl⟩,_,_,rfl,rfl,rfl,rfl⟩

end Hqemu.Tcg.Liveness
