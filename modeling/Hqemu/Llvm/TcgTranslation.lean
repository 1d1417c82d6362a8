import Hqemu.Llvm.LooseOps
import Hqemu.Llvm.SaveGlobals

/-! Blocks of integer ops translated with promoted registers, against their direct
interpretation. -/
namespace Hqemu.Llvm.PromotedRegs
open Function List Option TcgOps

/-- The state a block is entered with: nothing is promoted, and the local temporaries that
have a slot in the frame have one of their own. -/
structure Start (ctx : Context) where
  slot : Nat → Option Nat
  frameOff : Nat
  mem : Addr → Nat
  slot_lt : ∀ i s, slot i = some s → s < frameOff
  slot_inj : ∀ i j s, slot i = some s → slot j = some s → i = j
  slot_local : ∀ i s, slot i = some s → ctx.isLocal i = true

variable {ctx : Context}

def Start.state (st : Start ctx) : State where
  reg i := ⟨none,false,st.slot i⟩
  frameOff := st.frameOff
  mem := st.mem

def Start.regs (st : Start ctx) : Regs := fun i => (st.state.home ctx i).map st.mem

def State.Holds (ctx : Context) (x : State) (i v : Nat) : Prop :=
  ∃ a, x.home ctx i = some a ∧ x.mem a = v

def Saved (ctx : Context) (i : Nat) : Prop :=
  i < ctx.nbGlobals ∨ i < ctx.nbTemps ∧ ctx.isLocal i = true

/-- The ops are translated, and whatever shifts by the width yield, each global and each local
temporary with a value ends up in memory with it. -/
def Correct (st : Start ctx) (b : Block ctx) : Prop :=
  ∀ r, interp ctx.size b.ops st.regs = some r → ∀ u : Nat → Nat,
    ∃ x, translate ctx u 0 b.ops st.state = some x ∧
      ∀ i v, Saved ctx i → r i = some v → (x.saveGlobals ctx).Holds ctx i v

def mark (m : Nat → Option Bool) (op : Op) : Nat → Option Bool :=
  fun i => if i ∈ op.outs then some (setsDirty op) else m i

def lastSet (ops : List Op) : Nat → Option Bool := ops.foldl mark fun _ => none

structure Rel (st : Start ctx) (m : Nat → Option Bool) (x : State) (r : Regs) : Prop where
  mem : x.mem = st.mem
  frameOff : x.frameOff = st.frameOff
  slot : ∀ i, (x.reg i).slot = st.slot i
  promoted : ∀ i v, (x.reg i).data = some v →
    r i = some v ∧ ((x.reg i).dirty = true ↔ m i = some true)
  demoted : ∀ i, (x.reg i).data = none → m i = none
  clean : ∀ i, m i = none → r i = st.regs i

section Simulation
variable {st : Start ctx} {m : Nat → Option Bool} {x : State} {r : Regs}

theorem Rel.start (st : Start ctx) : Rel st (fun _ => none) st.state st.regs := by
  constructor
  · rfl
  · rfl
  · intro i
    rfl
  · intro i v h
    cases h
  · intro i _
    rfl
  · intro i _
    rfl

variable {i : Nat}

section

variable (h : Rel st m x r)
include h

theorem Rel.home (i : Nat) : x.home ctx i = st.state.home ctx i := by
  simp [State.home,h.slot,Start.state]

theorem Rel.put {d : Bool} {dirty : Option Bool} (i v : Nat) (hd : d = true ↔ dirty = some true)
    (hclean : dirty = none → some v = st.regs i) :
    Rel st (update m i dirty) (x.setData i v d) (update r i (some v)) := by
  constructor
  · exact h.mem
  · exact h.frameOff
  · intro j
    by_cases hj : j = i
    · subst hj
      simpa [State.setData] using h.slot j
    · simpa [State.setData,hj] using h.slot j
  · intro j w
    by_cases hj : j = i
    · subst hj
      simp [State.setData,hd]
    · simpa [State.setData,hj] using h.promoted j w
  · intro j
    by_cases hj : j = i
    · subst hj
      simp [State.setData]
    · simpa [State.setData,hj] using h.demoted j
  · intro j
    by_cases hj : j = i
    · subst hj
      simpa using hclean
    · simpa [hj] using h.clean j

theorem Rel.setData (i v : Nat) (d : Bool) :
    Rel st (update m i (some d)) (x.setData i v d) (update r i (some v)) :=
  h.put i v (by simp) nofun

theorem Rel.promote {a : Addr} (hdata : (x.reg i).data = none)
    (hhome : x.home ctx i = some a) : Rel st m (x.setData i (x.mem a) false) r := by
  have hmark := h.demoted i hdata
  have hval : r i = some (x.mem a) := by
    rw [h.clean i hmark,Start.regs,← h.home,hhome,h.mem]
    rfl
  have hput := h.put i (x.mem a) (show false = true ↔ m i = some true by simp [hmark])
    fun hnone => hval.symm.trans (h.clean i hnone)
  rwa [← hval,update_eq_self,update_eq_self] at hput

theorem Rel.loadInput (i : Nat) :
    match r i with
    | none => x.loadInput ctx i = none
    | some v => ∃ x', x.loadInput ctx i = some (x',v) ∧ Rel st m x' r := by
  unfold State.loadInput
  cases hdata : (x.reg i).data with
  | some v =>
    rw [(h.promoted i v hdata).1]
    exact ⟨x,rfl,h⟩
  | none =>
    have hval : r i = (x.home ctx i).map st.mem := by
      rw [h.clean i (h.demoted i hdata),Start.regs,h.home]
    cases hhome : x.home ctx i with
    | none =>
      rw [hval,hhome]
      rfl
    | some a =>
      rw [hval,hhome,← h.mem]
      exact ⟨_,rfl,h.promote hdata hhome⟩

theorem Rel.loadInputs (l : List Nat) :
    match r.read l with
    | none => x.loadInputs ctx l = none
    | some vals => ∃ x', x.loadInputs ctx l = some (x',vals) ∧ Rel st m x' r := by
  induction l generalizing x with
  | nil => exact ⟨x,rfl,h⟩
  | cons i l ih =>
    have hfirst := h.loadInput i
    cases hi : r i with
    | none =>
      simp only [hi] at hfirst
      simp [Regs.read,hi,State.loadInputs,hfirst]
    | some v =>
      simp only [hi] at hfirst
      obtain ⟨x',hload,hrel⟩ := hfirst
      have hrest := ih hrel
      cases hl : r.read l with
      | none =>
        simp only [hl] at hrest
        simp [Regs.read,hi,hl,State.loadInputs,hload,hrest]
      | some vals =>
        simp only [hl] at hrest
        obtain ⟨x'',hloads,hrel'⟩ := hrest
        simp only [Regs.read,hi,hl,State.loadInputs,hload,hloads]
        exact ⟨x'',rfl,hrel'⟩

end

theorem Rel.setOuts {d : Bool} {outs res : List Nat} (hlen : outs.length = res.length)
    (h : Rel st m x r) :
    Rel st (fun i => if i ∈ outs then some d else m i) (x.setOuts d outs res)
      (r.write outs res) := by
  induction outs generalizing m x r res with
  | nil => simpa [State.setOuts,Regs.write] using h
  | cons o outs ih =>
    cases res with
    | nil => cases hlen
    | cons v res =>
      have hnext := ih (Nat.succ.inj hlen) (h.setData o v d)
      have hmarks : (fun i => if i ∈ outs then some d else update m o (some d) i) =
          fun i => if i ∈ o :: outs then some d else m i := by
        funext i
        by_cases hi : i = o
        · simp [hi]
        · simp [hi]
      rw [hmarks] at hnext
      exact hnext

theorem loose_length {u : Nat} {size : Sizes} {op : Op} {vals res : List Nat}
    (h : loose u size op vals = some res) : op.outs.length = res.length := by
  cases op with
  | mov w out inp | unary w o out inp =>
    rcases vals with _ | ⟨a,_ | ⟨b,l⟩⟩ <;> cases h
    rfl
  | movi w out c =>
    rcases vals with _ | ⟨a,l⟩ <;> cases h
    rfl
  | setcond w cond out in1 in2 | mulu2 out1 out2 in1 in2 =>
    rcases vals with _ | ⟨a,_ | ⟨b,_ | ⟨c,l⟩⟩⟩ <;> cases h
    rfl
  | binary w o out in1 in2 =>
    rcases vals with _ | ⟨a,_ | ⟨b,_ | ⟨c,l⟩⟩⟩
    · cases h
    · cases h
    · simp only [loose,map_eq_some_iff] at h
      obtain ⟨v,-,rfl⟩ := h
      rfl
    · cases h
  | div2 w out1 out2 in1 in2 in3 | divu2 w out1 out2 in1 in2 in3 =>
    rcases vals with _ | ⟨a,_ | ⟨b,_ | ⟨c,_ | ⟨d,l⟩⟩⟩⟩
    · cases h
    · cases h
    · cases h
    · simp only [loose,ite_none_right_eq_some,some.injEq] at h
      rw [← h.2]
      rfl
    · cases h
  | add2 out1 out2 in1 in2 in3 in4 | sub2 out1 out2 in1 in2 in3 in4
  | setcond2 cond out in1 in2 in3 in4 =>
    rcases vals with _ | ⟨a,_ | ⟨b,_ | ⟨c,_ | ⟨d,_ | ⟨e,l⟩⟩⟩⟩⟩ <;> cases h
    rfl

theorem Rel.translateOp (h : Rel st m x r) {op : Op} (himplies : notImplemented op = false) (u :
    Nat) :
    match (r.read op.ins).bind (loose u ctx.size op) with
    | none => translateOp ctx u x op = none
    | some res => ∃ x', PromotedRegs.translateOp ctx u x op = some x' ∧
        Rel st (mark m op) x' (r.write op.outs res) := by
  have hloads := h.loadInputs op.ins
  unfold PromotedRegs.translateOp
  rw [himplies,if_neg Bool.false_ne_true]
  cases hread : r.read op.ins with
  | none =>
    simp only [hread] at hloads
    simp [hloads]
  | some vals =>
    simp only [hread] at hloads
    obtain ⟨x',hload,hrel⟩ := hloads
    simp only [hload,code_eq_loose u himplies,bind_some]
    cases hres : loose u ctx.size op vals with
    | none => rfl
    | some res => exact ⟨_,rfl,hrel.setOuts (loose_length hres)⟩

def looseRun (ctx : Context) (u : Nat → Nat) : Nat → List Op → Regs → Option Regs :=
  run fun k => loose (u k) ctx.size

theorem looseRun_cons (u : Nat → Nat) (k : Nat) (op : Op) (l : List Op) (r : Regs) :
    looseRun ctx u k (op :: l) r =
      ((r.read op.ins).bind (loose (u k) ctx.size op)).bind fun res =>
        looseRun ctx u (k+1) l (r.write op.outs res) := by
  rw [looseRun,run]
  cases r.read op.ins with
  | none => rfl
  | some vals =>
    rw [bind_some]
    cases hres : loose (u k) ctx.size op vals <;> simp only [hres] <;> rfl

section

variable (h : Rel st m x r)
include h

theorem Rel.translate {u : Nat → Nat} {k : Nat} {ops : List Op} {r' : Regs}
    (himplies : ∀ op ∈ ops, notImplemented op = false) (hrun : looseRun ctx u k ops r = some r') :
    ∃ x', translate ctx u k ops x = some x' ∧ Rel st (ops.foldl mark m) x' r' := by
  induction ops generalizing m x r k with
  | nil =>
    cases hrun
    exact ⟨x,rfl,h⟩
  | cons op ops ih =>
    rw [looseRun_cons,bind_eq_some_iff] at hrun
    obtain ⟨res,hres,hrest⟩ := hrun
    have hs := h.translateOp (himplies op mem_cons_self) (u k)
    simp only [hres] at hs
    obtain ⟨x',hop,hrel⟩ := hs
    obtain ⟨y,hy,hrel'⟩ := ih hrel (fun o ho => himplies o (mem_cons_of_mem _ ho)) hrest
    refine ⟨y,?_,hrel'⟩
    rw [PromotedRegs.translate,hop]
    exact hy

theorem Rel.of_translate {u : Nat → Nat} {k : Nat} {ops : List Op} {x' : State}
    (htr : PromotedRegs.translate ctx u k ops x = some x') :
    (∀ op ∈ ops, notImplemented op = false) ∧
      ∃ r', looseRun ctx u k ops r = some r' ∧ Rel st (ops.foldl mark m) x' r' := by
  induction ops generalizing m x r k with
  | nil =>
    cases htr
    exact ⟨by simp,r,rfl,h⟩
  | cons op ops ih =>
    unfold PromotedRegs.translate at htr
    cases hop : PromotedRegs.translateOp ctx (u k) x op with
    | none => simp [hop] at htr
    | some y =>
      simp only [hop] at htr
      have himplies : notImplemented op = false := by
        by_contra hnot
        simp [PromotedRegs.translateOp,hnot] at hop
      have hs := h.translateOp himplies (u k)
      cases hres : (r.read op.ins).bind (loose (u k) ctx.size op) with
      | none =>
        simp only [hres] at hs
        rw [hs] at hop
        cases hop
      | some res =>
        simp only [hres] at hs
        obtain ⟨y',hop',hrel⟩ := hs
        rw [hop,some.injEq] at hop'
        subst hop'
        obtain ⟨hall,r',hrun,hrel'⟩ := ih hrel htr
        refine ⟨forall_mem_cons.mpr ⟨himplies,hall⟩,r',?_,hrel'⟩
        rw [looseRun_cons,hres]
        exact hrun

theorem Rel.dirty (hm : m i = some true) :
    ∃ v, (x.reg i).data = some v ∧ (x.reg i).dirty = true := by
  cases hdata : (x.reg i).data with
  | none =>
    rw [h.demoted i hdata] at hm
    cases hm
  | some v => exact ⟨v,rfl,(h.promoted i v hdata).2.mpr hm⟩

theorem Rel.framed : x.Framed := by
  constructor
  · intro i s hs
    rw [h.slot] at hs
    rw [h.frameOff]
    exact st.slot_lt i s hs
  · intro i j s hs hs'
    rw [h.slot] at hs hs'
    exact st.slot_inj i j s hs hs'

theorem Rel.holds_saveGlobals (hi : Saved ctx i) (v : Nat) :
    (x.saveGlobals ctx).Holds ctx i v ↔ (if m i = some true then r i else st.regs i) = some v := by
  have hglobals : GlobalsSaved ctx (List.range ctx.nbGlobals) x
      ((List.range ctx.nbGlobals).foldl (State.saveGlobal ctx) x) :=
    foldl_saveGlobal nodup_range fun j hj => mem_range.mp hj
  unfold State.saveGlobals
  generalize (List.range ctx.nbGlobals).foldl (State.saveGlobal ctx) x = y at hglobals
  have hy : y.Framed := by
    constructor
    · intro j s hs
      rw [hglobals.slot] at hs
      rw [hglobals.frameOff]
      exact h.framed.lt j s hs
    · intro j k s hs hs'
      rw [hglobals.slot] at hs hs'
      exact h.framed.inj j k s hs hs'
  have hlocals : LocalsSaved ctx (List.range' ctx.nbGlobals (ctx.nbTemps-ctx.nbGlobals)) y
      ((List.range' ctx.nbGlobals (ctx.nbTemps-ctx.nbGlobals)).foldl (State.saveLocal ctx) y) :=
    foldl_saveLocal nodup_range' hy
  generalize (List.range' ctx.nbGlobals (ctx.nbTemps-ctx.nbGlobals)).foldl
    (State.saveLocal ctx) y = z at hlocals
  unfold State.Holds State.home
  by_cases hlt : i < ctx.nbGlobals
  · have hval : z.mem (.state (ctx.off i)) = x.globalValue ctx i := by
      rw [hlocals.state,hglobals.saved i (mem_range.mpr hlt)]
    simp only [hlt,if_true,some.injEq,exists_eq_left',hval]
    by_cases hm : m i = some true
    · obtain ⟨w,hw,hdirty⟩ := h.dirty hm
      rw [if_pos hm,(h.promoted i w hw).1,State.globalValue,hw]
      simp [hdirty]
    · have hregs : st.regs i = some (x.mem (.state (ctx.off i))) := by
        simp [Start.regs,State.home,hlt,h.mem]
      rw [if_neg hm,hregs,State.globalValue]
      cases hdata : (x.reg i).data with
      | none => simp
      | some w =>
        have hclean : (x.reg i).dirty = false := by
          by_contra hd
          exact hm ((h.promoted i w hdata).2.mp (by simpa using hd))
        simp [hclean]
  · have hin : i ∈ List.range' ctx.nbGlobals (ctx.nbTemps-ctx.nbGlobals) := by
      rw [mem_range'_1]
      rcases hi with hi | hi <;> omega
    have hloc : ctx.isLocal i = true := by
      rcases hi with hi | hi
      · exact absurd hi hlt
      · exact hi.2
    have hreg : y.reg i = x.reg i := hglobals.reg i fun hmem => hlt (mem_range.mp hmem)
    simp only [hlt,if_false,map_eq_some_iff]
    by_cases hm : m i = some true
    · obtain ⟨w,hw,hdirty⟩ := h.dirty hm
      have hpend : y.pending ctx i = some w := by
        rw [State.pending,hreg,if_pos ⟨hloc,hdirty⟩,hw]
      obtain ⟨s,hs,hval⟩ := hlocals.saved i hin w hpend
      rw [if_pos hm,(h.promoted i w hw).1]
      simp [hs,hval]
    · have hpend : y.pending ctx i = none := by
        rw [State.pending,hreg]
        by_cases hd : ctx.isLocal i = true ∧ (x.reg i).dirty = true
        · rw [if_pos hd]
          by_contra hdata
          obtain ⟨w,hw⟩ := ne_none_iff_exists'.mp hdata
          exact hm ((h.promoted i w hw).2.mp hd.2)
        · rw [if_neg hd]
      obtain ⟨hslot,hval⟩ := hlocals.kept i hin hpend
      rw [if_neg hm,hslot,hreg,h.slot,Start.regs]
      simp only [State.home,hlt,if_false,Start.state]
      cases hs : st.slot i with
      | none => simp
      | some s =>
        have hframe : z.mem (.frame s) = st.mem (.frame s) := by
          rw [hval s (by rw [hreg,h.slot,hs]),hglobals.mem _ (fun j _ => by simp),h.mem]
        simp [hframe]

end

end Simulation

/-- For memory to end up right the translator stops at no op, and each global and local temporary
gets its value by an op that marks it dirty, or by a byte swap when memory has that value. -/
def Kept (st : Start ctx) (b : Block ctx) : Prop :=
  ∀ r, interp ctx.size b.ops st.regs = some r →
    (∀ op ∈ b.ops, notImplemented op = false) ∧ ∀ u : Nat → Nat,
      ∃ r', looseRun ctx u 0 b.ops st.regs = some r' ∧ ∀ i v, Saved ctx i → r i = some v →
        match lastSet b.ops i with
        | none => True
        | some true => r' i = some v
        | some false => st.regs i = some v

variable {r : Regs} {i : Nat}

theorem write_of_not_mem {outs res : List Nat} (h : i ∉ outs) : r.write outs res i = r i := by
  induction outs generalizing r res with
  | nil => rfl
  | cons o outs ih =>
    rw [mem_cons,not_or] at h
    cases res with
    | nil => rfl
    | cons v res =>
      rw [Regs.write,ih h.2,update_of_ne h.1]

variable {ops : List Op}

theorem foldl_mark_none {m : Nat → Option Bool} (h : ops.foldl mark m i = none) :
    m i = none ∧ ∀ op ∈ ops, i ∉ op.outs := by
  induction ops generalizing m with
  | nil => exact ⟨h,by simp⟩
  | cons op ops ih =>
    obtain ⟨hm,hrest⟩ := ih h
    have hout : i ∉ op.outs := by
      intro hmem
      rw [mark,if_pos hmem] at hm
      cases hm
    rw [mark,if_neg hout] at hm
    exact ⟨hm,forall_mem_cons.mpr ⟨hout,hrest⟩⟩

theorem run_of_not_mem {ev : Nat → Op → List Nat → Option (List Nat)} {k : Nat} {r' : Regs}
    (h : run ev k ops r = some r') (hi : ∀ op ∈ ops, i ∉ op.outs) : r' i = r i := by
  induction ops generalizing r k with
  | nil =>
    cases h
    rfl
  | cons op ops ih =>
    rw [forall_mem_cons] at hi
    unfold run at h
    split at h
    · cases h
    split at h
    · cases h
    · rw [ih h hi.2,write_of_not_mem hi.1]

theorem kept_of_correct {st : Start ctx} {b : Block ctx} (h : Correct st b) : Kept st b := by
  intro r hr
  have htr : ∀ u, (∀ op ∈ b.ops, notImplemented op = false) ∧
      ∃ r', looseRun ctx u 0 b.ops st.regs = some r' ∧ ∀ i v, Saved ctx i → r i = some v →
        (if lastSet b.ops i = some true then r' i else st.regs i) = some v := by
    intro u
    obtain ⟨x,hx,hholds⟩ := h r hr u
    obtain ⟨himplies,r',hrun,hrel⟩ := (Rel.start st).of_translate hx
    exact ⟨himplies,r',hrun,fun i v hi hv => (hrel.holds_saveGlobals hi v).mp (hholds i v hi hv)⟩
  refine ⟨(htr fun _ => 0).1,fun u => ?_⟩
  obtain ⟨-,r',hrun,hvals⟩ := htr u
  refine ⟨r',hrun,fun i v hi hv => ?_⟩
  have hval := hvals i v hi hv
  cases hlast : lastSet b.ops i with
  | none => trivial
  | some d => cases d <;> simpa [hlast] using hval

theorem correct_of_kept {st : Start ctx} {b : Block ctx} (h : Kept st b) : Correct st b := by
  intro r hr u
  obtain ⟨himplies,hall⟩ := h r hr
  obtain ⟨r',hrun,hvals⟩ := hall u
  obtain ⟨x,hx,hrel⟩ := (Rel.start st).translate himplies hrun
  refine ⟨x,hx,fun i v hi hv => (hrel.holds_saveGlobals hi v).mpr ?_⟩
  have hval := hvals i v hi hv
  cases hlast : lastSet b.ops i with
  | none =>
    have hsame := run_of_not_mem hr (foldl_mark_none hlast).2
    have hnone : b.ops.foldl mark (fun _ => none) i = none := hlast
    rw [hnone,if_neg (by simp),← hsame,hv]
  | some d =>
    have hsome : b.ops.foldl mark (fun _ => none) i = some d := hlast
    rw [hlast] at hval
    cases d <;> simpa [hsome] using hval

/-- Memory ends up right exactly if no update is lost to a missing dirty bit and no value rests
on a rotation by zero. -/
theorem translate_correct_iff (st : Start ctx) (b : Block ctx) : Correct st b ↔ Kept st b :=
  ⟨kept_of_correct,correct_of_kept⟩

def isRotate : Op → Bool
  | .binary _ .rotl _ _ _ => true
  | .binary _ .rotr _ _ _ => true
  | _ => false

theorem not_zeroRotate {op : Op} (h : isRotate op = false) (vals : List Nat) :
    ¬ ZeroRotate op vals := by
  unfold ZeroRotate
  split
  · cases h
  · cases h
  · exact id

theorem looseRun_of_interp {u : Nat → Nat} {k : Nat} {r' : Regs}
    (h : run (fun _ => eval ctx.size) k ops r = some r') (hrot : ∀ op ∈ ops, isRotate op = false) :
    looseRun ctx u k ops r = some r' := by
  induction ops generalizing r k with
  | nil => exact h
  | cons op ops ih =>
    rw [forall_mem_cons] at hrot
    unfold run at h
    cases hread : r.read op.ins with
    | none => simp [hread] at h
    | some vals =>
      simp only [hread] at h
      cases hres : eval ctx.size op vals with
      | none => simp [hres] at h
      | some res =>
        simp only [hres] at h
        have hloose := loose_eq_eval (u k) hres (not_zeroRotate hrot.1 vals)
        rw [looseRun_cons,hread,bind_some,hloose,bind_some]
        exact ih h hrot.2

theorem foldl_mark_true {m : Nat → Option Bool} (hm : m i ≠ some false)
    (h : ∀ op ∈ ops, setsDirty op = true) : ops.foldl mark m i ≠ some false := by
  induction ops generalizing m with
  | nil => exact hm
  | cons op ops ih =>
    rw [forall_mem_cons] at h
    apply ih _ h.2
    by_cases hi : i ∈ op.outs
    · simp [mark,hi,h.1]
    · simpa [mark,hi] using hm

/-- Ops that are implemented and mark what they set as dirty are translated right. -/
theorem correct_of_plain (st : Start ctx) (b : Block ctx)
    (himplies : ∀ op ∈ b.ops, notImplemented op = false) (hdirty : ∀ op ∈ b.ops, setsDirty op =
        true)
    (hrot : ∀ op ∈ b.ops, isRotate op = false) : Correct st b := by
  apply correct_of_kept
  intro r hr
  refine ⟨himplies,fun u => ⟨r,looseRun_of_interp hr hrot,fun i v _ hv => ?_⟩⟩
  have hne : lastSet b.ops i ≠ some false := foldl_mark_true (by simp) hdirty
  cases hlast : lastSet b.ops i with
  | none => trivial
  | some d =>
    cases d with
    | false => exact absurd hlast hne
    | true => exact hv

def oneGlobal : Context where
  nbGlobals := 1
  nbTemps := 2
  size _ := .i32
  isLocal _ := false
  off _ := 0
  distinct := by omega
  long := 64
  longPos := by decide

def holdingOne : Start oneGlobal where
  slot _ := none
  frameOff := 0
  mem _ := 1
  slot_lt := by simp
  slot_inj := by simp
  slot_local := by simp

theorem correct_of_plain_add :
    Correct holdingOne ⟨[.movi .i32 1 5, .binary .i32 .add 0 0 1], by decide⟩ :=
  correct_of_plain holdingOne _ (by decide) (by decide) (by decide)

def swapBlock : Block oneGlobal := ⟨[.unary .i32 .bswap32 0 0],by decide⟩

def rotateBlock : Block oneGlobal := ⟨[.movi .i32 1 0,.binary .i32 .rotl 0 0 1],by decide⟩

/-- The byte swap never reaches memory, and the rotation by zero may set further bits. -/
theorem translate_loses_swap :
    ¬ Correct holdingOne swapBlock ∧ ¬ Correct holdingOne rotateBlock := by
  have hglobal : Saved oneGlobal 0 := Or.inl (by decide)
  constructor
  · intro h
    have hswap : (interp oneGlobal.size swapBlock.ops holdingOne.regs).map (· 0) =
        some (some 0x01000000) := by decide
    obtain ⟨r,hr,hval⟩ := map_eq_some_iff.mp hswap
    obtain ⟨-,hall⟩ := kept_of_correct h r hr
    obtain ⟨r',-,hkeep⟩ := hall fun _ => 0
    have hmem : holdingOne.regs 0 = some 0x01000000 := hkeep 0 _ hglobal hval
    revert hmem
    decide
  · intro h
    have hrot : (interp oneGlobal.size rotateBlock.ops holdingOne.regs).map (· 0) =
        some (some 1) := by decide
    have hloose : (looseRun oneGlobal (fun _ => 2) 0 rotateBlock.ops holdingOne.regs).map (· 0) =
        some (some 3) := by decide
    obtain ⟨r,hr,hval⟩ := map_eq_some_iff.mp hrot
    obtain ⟨-,hall⟩ := kept_of_correct h r hr
    obtain ⟨r',hrun,hkeep⟩ := hall fun _ => 2
    have hone : r' 0 = some 1 := hkeep 0 _ hglobal hval
    rw [hrun,map_some,hone] at hloose
    revert hloose
    decide

end Hqemu.Llvm.PromotedRegs
