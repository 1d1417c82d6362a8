import Hqemu.Llvm.PromotedRegs

/-! The two loops of `SaveGlobals`: what they store and what they leave alone. -/
namespace Hqemu.Llvm.PromotedRegs
open Function List

variable {ctx : Context} {x : State}

structure State.Framed (x : State) : Prop where
  lt : ∀ i s, (x.reg i).slot = some s → s < x.frameOff
  inj : ∀ i j s, (x.reg i).slot = some s → (x.reg j).slot = some s → i = j

def State.globalValue (ctx : Context) (x : State) (i : Nat) : Nat :=
  match (x.reg i).data with
  | some v => if (x.reg i).dirty then v else x.mem (.state (ctx.off i))
  | none => x.mem (.state (ctx.off i))

open State

theorem saveGlobal_reg_of_ne {i j : Nat} (h : j ≠ i) : (x.saveGlobal ctx i).reg j = x.reg j := by
  unfold saveGlobal
  cases (x.reg i).data with
  | none => rfl
  | some v => cases (x.reg i).dirty <;> simp [demote,h]

theorem saveGlobal_slot (i j : Nat) : ((x.saveGlobal ctx i).reg j).slot = (x.reg j).slot := by
  by_cases h : j = i
  · subst h
    unfold saveGlobal
    cases (x.reg j).data with
    | none => rfl
    | some v => cases (x.reg j).dirty <;> simp [demote]
  · rw [saveGlobal_reg_of_ne h]

theorem saveGlobal_frameOff (i : Nat) : (x.saveGlobal ctx i).frameOff = x.frameOff := by
  unfold saveGlobal
  cases (x.reg i).data with
  | none => rfl
  | some v => cases (x.reg i).dirty <;> rfl

theorem saveGlobal_mem (i : Nat) :
    (x.saveGlobal ctx i).mem = update x.mem (.state (ctx.off i)) (x.globalValue ctx i) := by
  unfold saveGlobal globalValue
  cases (x.reg i).data with
  | none => simp
  | some v => cases (x.reg i).dirty <;> simp [demote]

structure GlobalsSaved (ctx : Context) (l : List Nat) (x y : State) : Prop where
  frameOff : y.frameOff = x.frameOff
  slot : ∀ j, (y.reg j).slot = (x.reg j).slot
  reg : ∀ j, j ∉ l → y.reg j = x.reg j
  mem : ∀ a, (∀ i ∈ l, a ≠ .state (ctx.off i)) → y.mem a = x.mem a
  saved : ∀ i ∈ l, y.mem (.state (ctx.off i)) = x.globalValue ctx i

theorem foldl_saveGlobal {l : List Nat} (hl : l.Nodup) (hlt : ∀ i ∈ l, i < ctx.nbGlobals) :
    GlobalsSaved ctx l x (l.foldl (saveGlobal ctx) x) := by
  induction l generalizing x with
  | nil =>
    constructor
    · rfl
    · intro j
      rfl
    · intro j _
      rfl
    · intro a _
      rfl
    · intro i hi
      cases hi
  | cons i l ih =>
    rw [nodup_cons] at hl
    have hrest := ih (x := x.saveGlobal ctx i) hl.2 fun j hj => hlt j (mem_cons_of_mem _ hj)
    have hoff : ∀ j ∈ l, Addr.state (ctx.off i) ≠ .state (ctx.off j) := by
      intro j hj heq
      have hij := ctx.distinct i (hlt i mem_cons_self) j
        (hlt j (mem_cons_of_mem _ hj)) (Addr.state.inj heq)
      exact hl.1 (hij ▸ hj)
    rw [foldl_cons]
    constructor
    · rw [hrest.frameOff,saveGlobal_frameOff]
    · intro j
      rw [hrest.slot,saveGlobal_slot]
    · intro j hj
      rw [mem_cons,not_or] at hj
      rw [hrest.reg j hj.2,saveGlobal_reg_of_ne hj.1]
    · intro a ha
      rw [hrest.mem a fun j hj => ha j (mem_cons_of_mem _ hj),saveGlobal_mem,
        update_of_ne (ha i mem_cons_self)]
    · intro j hj
      rcases mem_cons.mp hj with rfl | hj
      · rw [hrest.mem _ hoff,saveGlobal_mem,update_self]
      have hne : j ≠ i := fun heq => hl.1 (heq ▸ hj)
      rw [hrest.saved j hj,globalValue,globalValue,saveGlobal_reg_of_ne hne,
        saveGlobal_mem,update_of_ne (hoff j hj).symm]

def State.pending (ctx : Context) (x : State) (i : Nat) : Option Nat :=
  if ctx.isLocal i ∧ (x.reg i).dirty then (x.reg i).data else none

structure LocalsSaved (ctx : Context) (l : List Nat) (x y : State) : Prop where
  framed : y.Framed
  grows : x.frameOff ≤ y.frameOff
  state : ∀ o, y.mem (.state o) = x.mem (.state o)
  reg : ∀ j, j ∉ l → y.reg j = x.reg j
  slot : ∀ j s, (x.reg j).slot = some s → (y.reg j).slot = some s
  frame : ∀ s < x.frameOff, (∀ j ∈ l, (x.reg j).slot ≠ some s) →
    y.mem (.frame s) = x.mem (.frame s)
  saved : ∀ i ∈ l, ∀ v, x.pending ctx i = some v →
    ∃ s, (y.reg i).slot = some s ∧ y.mem (.frame s) = v
  kept : ∀ i ∈ l, x.pending ctx i = none → (y.reg i).slot = (x.reg i).slot ∧
    ∀ s, (x.reg i).slot = some s → y.mem (.frame s) = x.mem (.frame s)

theorem LocalsSaved.nil (hx : x.Framed) : LocalsSaved ctx [] x x := by
  constructor
  · exact hx
  · exact Nat.le_refl _
  · intro o
    rfl
  · intro j _
    rfl
  · intro j s h
    exact h
  · intro s _ _
    rfl
  · intro i hi
    cases hi
  · intro i hi
    cases hi

theorem LocalsSaved.cons {i : Nat} {l : List Nat} {y z : State} (hx : x.Framed) (hi : i ∉ l)
    (h : LocalsSaved ctx [i] x y) (h' : LocalsSaved ctx l y z) : LocalsSaved ctx (i :: l) x z := by
  have hother : ∀ j, j ≠ i → y.reg j = x.reg j := fun j hj => h.reg j (by simpa using hj)
  have hmem : ∀ j ∈ l, j ≠ i := fun j hj heq => hi (heq ▸ hj)
  have hrest : ∀ s, (y.reg i).slot = some s → z.mem (.frame s) = y.mem (.frame s) := by
    intro s hs
    apply h'.frame s (h.framed.lt i s hs)
    intro j hj hsame
    exact hmem j hj (h.framed.inj j i s hsame hs)
  constructor
  · exact h'.framed
  · exact Nat.le_trans h.grows h'.grows
  · intro o
    rw [h'.state,h.state]
  · intro j hj
    rw [mem_cons,not_or] at hj
    rw [h'.reg j hj.2,hother j hj.1]
  · intro j s hs
    exact h'.slot j s (h.slot j s hs)
  · intro s hs hnone
    rw [h'.frame s (Nat.lt_of_lt_of_le hs h.grows),h.frame s hs]
    · intro j hj
      rw [mem_singleton.mp hj]
      exact hnone i mem_cons_self
    · intro j hj
      rw [hother j (hmem j hj)]
      exact hnone j (mem_cons_of_mem _ hj)
  · intro j hj v hv
    rcases mem_cons.mp hj with rfl | hj
    · obtain ⟨s,hs,hval⟩ := h.saved j mem_cons_self v hv
      exact ⟨s,h'.slot j s hs,by rw [hrest s hs,hval]⟩
    · apply h'.saved j hj v
      rw [← hv,State.pending,State.pending,hother j (hmem j hj)]
  · intro j hj hnone
    rcases mem_cons.mp hj with rfl | hj
    · obtain ⟨hslot,hval⟩ := h.kept j mem_cons_self hnone
      rw [h'.reg j hi,hslot]
      refine ⟨rfl,fun s hs => ?_⟩
      rw [hrest s (hslot ▸ hs),hval s hs]
    · have hsame := hother j (hmem j hj)
      have hpend : y.pending ctx j = none := by
        rw [← hnone,State.pending,State.pending,hsame]
      obtain ⟨hslot,hval⟩ := h'.kept j hj hpend
      rw [hslot,hsame]
      refine ⟨rfl,fun s hs => ?_⟩
      rw [hval s (hsame ▸ hs),h.frame s (hx.lt j s hs)]
      intro k hk hks
      rw [mem_singleton.mp hk] at hks
      exact hmem j hj (hx.inj j i s hs hks)

theorem saveLocal_of_none (hx : x.Framed) {i : Nat} (h : x.pending ctx i = none) :
    LocalsSaved ctx [i] x (x.saveLocal ctx i) := by
  have hstep : x.saveLocal ctx i = x ∨ x.saveLocal ctx i = x.demote i := by
    unfold saveLocal
    cases hdata : (x.reg i).data with
    | none => exact .inl rfl
    | some v =>
      have hclean : ¬ (ctx.isLocal i = true ∧ (x.reg i).dirty = true) := by
        intro hd
        rw [State.pending,if_pos hd,hdata] at h
        cases h
      simp [if_neg hclean]
  have hslot : ∀ j, ((x.saveLocal ctx i).reg j).slot = (x.reg j).slot := by
    intro j
    rcases hstep with hstep | hstep
    · rw [hstep]
    rw [hstep]
    by_cases hj : j = i
    · subst hj
      simp [demote]
    · simp [demote,hj]
  have hmem : (x.saveLocal ctx i).mem = x.mem := by
    rcases hstep with hstep | hstep
    · rw [hstep]
    · rw [hstep]
      rfl
  have hoff : (x.saveLocal ctx i).frameOff = x.frameOff := by
    rcases hstep with hstep | hstep
    · rw [hstep]
    · rw [hstep]
      rfl
  constructor
  · constructor
    · intro j s hs
      rw [hslot] at hs
      rw [hoff]
      exact hx.lt j s hs
    · intro j k s hs hs'
      rw [hslot] at hs hs'
      exact hx.inj j k s hs hs'
  · exact Nat.le_of_eq hoff.symm
  · intro o
    rw [hmem]
  · intro j hj
    rw [mem_singleton] at hj
    rcases hstep with hstep | hstep
    · rw [hstep]
    · rw [hstep]
      simp [demote,hj]
  · intro j s hs
    rw [hslot,hs]
  · intro s _ _
    rw [hmem]
  · intro j hj v hv
    rw [mem_singleton.mp hj,h] at hv
    cases hv
  · intro j _ _
    rw [hslot,hmem]
    exact ⟨rfl,fun _ _ => rfl⟩

structure SlotSet (x y : State) (i s : Nat) : Prop where
  slot : (y.reg i).slot = some s
  origin : (x.reg i).slot = some s ∨ (x.reg i).slot = none ∧ s = x.frameOff
  framed : y.Framed
  grows : x.frameOff ≤ y.frameOff
  mem : y.mem = x.mem
  reg : ∀ j, j ≠ i → y.reg j = x.reg j

theorem setFrame_slotSet (hx : x.Framed) (i : Nat) : ∃ s, SlotSet x (x.setFrame ctx i) i s := by
  unfold setFrame
  cases hslot : (x.reg i).slot with
  | some s =>
    refine ⟨s,?_⟩
    constructor
    · exact hslot
    · exact .inl hslot
    · exact hx
    · exact Nat.le_refl _
    · rfl
    · intro j _
      rfl
  | none =>
    have hsize : 32 ≤ (ctx.size i).bits := by cases ctx.size i <;> decide
    have hreg : ∀ j t, (update x.reg i { x.reg i with slot := some x.frameOff } j).slot =
        some t → j = i ∧ t = x.frameOff ∨ j ≠ i ∧ (x.reg j).slot = some t := by
      intro j t ht
      by_cases hj : j = i
      · subst hj
        simp only [update_self,Option.some.injEq] at ht
        exact .inl ⟨rfl,ht.symm⟩
      · rw [update_of_ne hj] at ht
        exact .inr ⟨hj,ht⟩
    refine ⟨x.frameOff,?_⟩
    constructor
    · simp
    · exact .inr ⟨hslot,rfl⟩
    · constructor
      · intro j t ht
        rcases hreg j t ht with ⟨-,rfl⟩ | ⟨-,ht⟩
        · dsimp only
          omega
        · have hlt := hx.lt j t ht
          dsimp only
          omega
      · intro j k t ht ht'
        rcases hreg j t ht with ⟨hj,hnew⟩ | ⟨-,hold⟩
        · rcases hreg k t ht' with ⟨hk,-⟩ | ⟨-,hold'⟩
          · rw [hj,hk]
          · have hlt := hx.lt k t hold'
            omega
        · rcases hreg k t ht' with ⟨-,hnew⟩ | ⟨-,hold'⟩
          · have hlt := hx.lt j t hold
            omega
          · exact hx.inj j k t hold hold'
    · dsimp only
      omega
    · rfl
    · intro j hj
      simp [hj]

theorem saveLocal_of_some (hx : x.Framed) {i v : Nat} (h : x.pending ctx i = some v) :
    LocalsSaved ctx [i] x (x.saveLocal ctx i) := by
  obtain ⟨s,hset⟩ : ∃ s, SlotSet x (x.setFrame ctx i) i s := setFrame_slotSet hx i
  have hdirty : ctx.isLocal i = true ∧ (x.reg i).dirty = true := by
    by_contra hnot
    rw [State.pending,if_neg hnot] at h
    cases h
  have hdata : (x.reg i).data = some v := by rwa [State.pending,if_pos hdirty] at h
  have hs : x.saveLocal ctx i =
      demote { x.setFrame ctx i with
        mem := update (x.setFrame ctx i).mem (.frame s) v } i := by
    unfold saveLocal
    simp [hdata,if_pos hdirty,hset.slot]
  generalize x.setFrame ctx i = z at hset hs
  have hslot : ∀ j, ((x.saveLocal ctx i).reg j).slot = (z.reg j).slot := by
    intro j
    rw [hs]
    by_cases hj : j = i
    · subst hj
      simp [demote]
    · simp [demote,hj]
  have hframe : ∀ t, t ≠ s → (x.saveLocal ctx i).mem (.frame t) = x.mem (.frame t) := by
    intro t ht
    rw [hs,← hset.mem]
    simp [demote,ht]
  have hoff : (x.saveLocal ctx i).frameOff = z.frameOff := by
    rw [hs]
    rfl
  constructor
  · constructor
    · intro j t ht
      rw [hslot] at ht
      rw [hoff]
      exact hset.framed.lt j t ht
    · intro j k t ht ht'
      rw [hslot] at ht ht'
      exact hset.framed.inj j k t ht ht'
  · rw [hoff]
    exact hset.grows
  · intro o
    rw [hs,← hset.mem]
    simp [demote]
  · intro j hj
    rw [mem_singleton] at hj
    rw [hs]
    simp [demote,hj,hset.reg j hj]
  · intro j t ht
    rw [hslot]
    by_cases hj : j = i
    · subst hj
      rcases hset.origin with horigin | ⟨hnone,-⟩
      · rw [hset.slot,← horigin,ht]
      · rw [hnone] at ht
        cases ht
    · rw [hset.reg j hj,ht]
  · intro t ht hnone
    apply hframe
    rintro rfl
    rcases hset.origin with horigin | ⟨-,hnew⟩
    · exact hnone i mem_cons_self horigin
    · omega
  · intro j hj w hw
    rw [mem_singleton.mp hj] at hw ⊢
    rw [h,Option.some.injEq] at hw
    refine ⟨s,by rw [hslot,hset.slot],?_⟩
    rw [hs,← hw]
    simp [demote]
  · intro j hj hnone
    rw [mem_singleton.mp hj,h] at hnone
    cases hnone

theorem foldl_saveLocal {l : List Nat} (hl : l.Nodup) (hx : x.Framed) :
    LocalsSaved ctx l x (l.foldl (saveLocal ctx) x) := by
  induction l generalizing x with
  | nil => exact LocalsSaved.nil hx
  | cons i l ih =>
    rw [nodup_cons] at hl
    have hfirst : LocalsSaved ctx [i] x (x.saveLocal ctx i) := by
      cases hp : x.pending ctx i with
      | none => exact saveLocal_of_none hx hp
      | some v => exact saveLocal_of_some hx hp
    exact LocalsSaved.cons hx hl.1 hfirst (ih hl.2 hfirst.framed)

end Hqemu.Llvm.PromotedRegs
