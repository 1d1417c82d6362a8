import Hqemu.Exec.Calls

/-! The indirect-branch target cache: whether the block of an entry is still valid is left to
whoever invalidates it. -/
namespace Hqemu.Exec.Ibtc

open Option World Lib.Run

variable {n : Nat} {cfg : Config} {w next : World n}

def Hits (cfg : Config) (w : World n) (c : Fin n) (state : TbCpuState) (eip : Nat)
    (tb : TbId) : Prop :=
  ∃ ptr, ((w.runGuest c state).helperLookupIbtc cfg c eip).2 = .optPtr tb ptr

theorem hits_iff (c : Fin n) (state : TbCpuState) (eip : Nat) (tb : TbId) :
    Hits cfg w c state eip tb ↔
      (w.cpus c).ibtc (eip &&& ibtcCacheMask) = ⟨eip,some tb⟩ ∧
        w.ibtcMatches cfg state tb = true := by
  have hstate : ((w.runGuest c state).cpus c).state = state := by simp [runGuest]
  have hibtc : ((w.runGuest c state).cpus c).ibtc = (w.cpus c).ibtc := by simp [runGuest]
  unfold Hits
  simp only [helperLookupIbtc_optPtr,hstate,hibtc,exists_and_left,exists_eq',and_true]
  rfl

def Kept (w next : World n) : Prop :=
  ∀ c slot, (next.cpus c).ibtc slot = (w.cpus c).ibtc slot ∨
    (next.cpus c).ibtc slot = ⟨0,none⟩

theorem Kept.trans {last : World n} (h : Kept w next) (hlast : Kept next last) : Kept w last := by
  intro c slot
  rcases hlast c slot with hsame | hz
  · rw [hsame]
    exact h c slot
  · exact .inr hz

theorem kept_of_ibtc (h : ∀ c, (next.cpus c).ibtc = (w.cpus c).ibtc) : Kept w next :=
  fun c slot => .inl (by rw [h])

theorem kept_updateCpu (c : Fin n) (f : Cpu → Cpu) (h : ∀ cpu, (f cpu).ibtc = cpu.ibtc) :
    Kept w (w.updateCpu c f) := by
  apply kept_of_ibtc
  intro d
  by_cases hd : d = c
  · subst hd
    simp [h]
  · simp [hd]

variable {c : Fin n}

theorem kept_tbFlush (h : w.tbFlush cfg c = some next) : Kept w next := by
  unfold tbFlush at h
  split at h
  · cases h
  cases h
  intro d slot
  by_cases hd : d = c
  · subst hd
    exact .inr (by simp [optimizationReset,ibtcReset,llvmTbFlush])
  · exact .inl (by simp [optimizationReset,ibtcReset,llvmTbFlush,hd])

theorem kept_translated {state : TbCpuState} {found : Option TbId}
    (h : Translated cfg w state next found) : Kept w next :=
  kept_of_ibtc fun c => by rw [h.cpus]

theorem kept_composes : Composes cfg c Kept where
  refl _ _ _ := .inl rfl
  trans := Kept.trans
  flag _ _ _ := .inl rfl
  profile _ _ := kept_of_ibtc fun c => by simp
  cache _ _ _ := kept_updateCpu c _ fun _ => rfl
  flush := kept_tbFlush
  translated := kept_translated

theorem kept_chainNext {nextTb : NextTb} {tb : TbId} (h : w.chainNext nextTb tb = some next) :
    Kept w next :=
  kept_of_ibtc fun c => by rw [(chainNext_some h).1]

theorem kept_finishTrace (entryTb : TbId) (code cacheVersion : Nat) :
    Kept w (w.finishTrace entryTb code cacheVersion) := by
  apply kept_of_ibtc
  intro c
  rw [(finishTrace_same ..).1]

variable {call : Call n}

theorem kept_step (hcall : ∀ c tb, call ≠ .updateIbtc c tb) (h : w.step cfg call = some next) :
    Kept w next := by
  cases call with
  | runGuest c state =>
    cases h
    exact kept_updateCpu c _ fun _ => rfl
  | findFast c gen =>
    obtain ⟨found,h⟩ := exists_of_map_fst h
    exact kept_composes.findFast (tbFindFast_some h)
  | genCode c state cflags gen =>
    obtain ⟨found,h⟩ := exists_of_map_fst h
    exact kept_composes.genCode h
  | lookupIbtc c eip =>
    simp only [World.step] at h
    cases (ite_none_left_eq_some.mp h).2
    rcases helperLookupIbtc_world cfg w c eip with hsame | hmiss
    · rw [hsame]
      exact fun _ _ => .inl rfl
    · rw [hmiss]
      exact kept_updateCpu c _ fun _ => rfl
  | updateIbtc c tb => exact absurd rfl (hcall c tb)
  | physInvalidate tb pageAddr =>
    obtain ⟨ptb,links,-,-,rfl⟩ := tbPhysInvalidate_some h
    apply kept_of_ibtc
    intro c
    dsimp only
    split <;> rfl
  | flush c => exact kept_tbFlush h
  | requestFlush =>
    cases h
    exact kept_of_ibtc fun c => rfl
  | emitExit addr state =>
    cases (ite_none_right_eq_some.mp h).2
    exact kept_of_ibtc fun c => rfl
  | finishTrace entryTb code cacheVersion =>
    cases h
    exact kept_finishTrace entryTb code cacheVersion
  | leaveRegion c addr gen =>
    simp only [step,leaveRegion,bind_eq_bind,bind_eq_some_iff,Prod.exists] at h
    obtain ⟨exit,-,mid,found,hfind,h⟩ := h
    have hguest : Kept w (w.runGuest c exit.state) := kept_updateCpu c _ fun _ => rfl
    have hmid : Kept w mid := hguest.trans (kept_composes.findFast (tbFindFast_some hfind))
    cases found with
    | none =>
      cases h
      exact hmid
    | some tb => exact hmid.trans (kept_chainNext h)

inductive Event (n : Nat) where
  | put (c : Fin n) (slot : Nat) (tb : TbId)
  | invalidated (tb : TbId)
deriving DecidableEq

structure Traced (n : Nat) where
  world : World n
  events : List (Event n)

def eventsOf (w : World n) : Call n → List (Event n)
  | .updateIbtc c tb =>
    let cpu := w.cpus c
    if cpu.updateIbtc then [.put c (cpu.cachedEip &&& ibtcCacheMask) tb] else []
  | .physInvalidate tb _ => [.invalidated tb]
  | _ => []

def Traced.step (cfg : Config) (s : Traced n) (call : Call n) : Option (Traced n) :=
  (s.world.step cfg call).map fun next => ⟨next,eventsOf s.world call ++ s.events⟩

def Traced.empty (n : Nat) : Traced n := ⟨emptyWorld n,[]⟩

/-- `tb` is what was last put in the slot, and it has not been invalidated since. -/
def ValidSincePut (c : Fin n) (slot : Nat) (tb : TbId) : List (Event n) → Prop
  | [] => False
  | .put d other filled :: rest =>
    if d = c ∧ other = slot then filled = tb else ValidSincePut c slot tb rest
  | .invalidated dead :: rest => dead ≠ tb ∧ ValidSincePut c slot tb rest

def HitsValid (cfg : Config) (s : Traced n) : Prop :=
  ∀ c state eip tb, Hits cfg s.world c state eip tb →
    ValidSincePut c (eip &&& ibtcCacheMask) tb s.events

def InvalidatesUnheld (s : Traced n) : Call n → Prop
  | .physInvalidate tb _ => ∀ c slot, ((s.world.cpus c).ibtc slot).tb ≠ some tb
  | _ => True

def Placed (w : World n) : Prop :=
  ∀ c slot, ((w.cpus c).ibtc slot).tb ≠ none →
    ((w.cpus c).ibtc slot).eip &&& ibtcCacheMask = slot

theorem Placed.of_kept (h : Placed w) (hkeep : Kept w next) : Placed next := by
  intro c slot hfield
  rcases hkeep c slot with hsame | hz
  · rw [hsame] at hfield ⊢
    exact h c slot hfield
  · simp [hz] at hfield

theorem placed_step (h : Placed w) (hs : w.step cfg call = some next) : Placed next := by
  by_cases hcall : ∃ c tb, call = .updateIbtc c tb
  · obtain ⟨c,tb,rfl⟩ := hcall
    cases hs
    intro d slot hfield
    rw [updateIbtcEntry_ibtc] at hfield ⊢
    split
    · rename_i hput
      exact hput.2.2.symm
    · rename_i hput
      rw [if_neg hput] at hfield
      exact h d slot hfield
  · exact h.of_kept (kept_step (fun c tb heq => hcall ⟨c,tb,heq⟩) hs)

def EntriesValid (s : Traced n) : Prop :=
  ∀ c slot tb, ((s.world.cpus c).ibtc slot).tb = some tb → ValidSincePut c slot tb s.events

theorem hitsValid_iff (s : Traced n) (hplace : Placed s.world) :
    HitsValid cfg s ↔ EntriesValid s := by
  constructor
  · intro h c slot tb htb
    have hslot := hplace c slot (by simp [htb])
    have hentry : (s.world.cpus c).ibtc slot = ⟨((s.world.cpus c).ibtc slot).eip,some tb⟩ := by
      rw [← htb]
    have hhit : Hits cfg s.world c (s.world.tbCpuState tb) ((s.world.cpus c).ibtc slot).eip tb := by
      rw [hits_iff,hslot]
      exact ⟨hentry,by simp [ibtcMatches,tbCpuState]⟩
    have hval := h c _ _ tb hhit
    rwa [hslot] at hval
  · intro h c state eip tb hhit
    rw [hits_iff] at hhit
    exact h c _ tb (by rw [hhit.1])

variable {s after : Traced n}

theorem Traced.step_some (h : s.step cfg call = some after) :
    s.world.step cfg call = some after.world ∧
      after.events = eventsOf s.world call ++ s.events := by
  simp only [Traced.step,map_eq_some_iff] at h
  obtain ⟨next,hnext,rfl⟩ := h
  exact ⟨hnext,rfl⟩

theorem eventsOf_eq_nil (hupdate : ∀ c tb, call ≠ .updateIbtc c tb)
    (hinvalidate : ∀ tb pageAddr, call ≠ .physInvalidate tb pageAddr) : eventsOf w call = [] := by
  cases call with
  | updateIbtc c tb => exact absurd rfl (hupdate c tb)
  | physInvalidate tb pageAddr => exact absurd rfl (hinvalidate tb pageAddr)
  | _ => rfl

theorem entriesValid_of_kept (h : EntriesValid s) (hkeep : Kept s.world after.world)
    (hevents : ∀ c slot tb, ((s.world.cpus c).ibtc slot).tb = some tb →
      ValidSincePut c slot tb s.events → ValidSincePut c slot tb after.events) :
    EntriesValid after := by
  intro c slot tb htb
  rcases hkeep c slot with hsame | hz
  · rw [hsame] at htb
    exact hevents c slot tb htb (h c slot tb htb)
  · simp [hz] at htb

theorem entriesValid_updateIbtc {tb : TbId} (h : EntriesValid s)
    (hs : s.step cfg (.updateIbtc c tb) = some after) : EntriesValid after := by
  obtain ⟨hworld,hevents⟩ := Traced.step_some hs
  have hafter : after.world = s.world.updateIbtcEntry c tb := (some.inj hworld).symm
  intro d slot block hblock
  rw [hafter,updateIbtcEntry_ibtc] at hblock
  rw [hevents]
  cases hpend : (s.world.cpus c).updateIbtc with
  | false =>
    simp only [hpend,Bool.false_eq_true,false_and,and_false,↓reduceIte] at hblock
    simpa [eventsOf,hpend] using h d slot block hblock
  | true =>
    simp only [hpend,true_and] at hblock
    simp only [eventsOf,hpend,↓reduceIte,List.singleton_append,ValidSincePut]
    by_cases hslot : d = c ∧ slot = (s.world.cpus c).cachedEip &&& ibtcCacheMask
    · rw [if_pos ⟨hslot.1.symm,hslot.2.symm⟩]
      rw [if_pos hslot] at hblock
      exact some.inj hblock
    · rw [if_neg fun hsame => hslot ⟨hsame.1.symm,hsame.2.symm⟩]
      rw [if_neg hslot] at hblock
      exact h d slot block hblock

theorem entriesValid_step (h : EntriesValid s) (hcond : InvalidatesUnheld s call)
    (hs : s.step cfg call = some after) : EntriesValid after := by
  by_cases hupdate : ∃ c tb, call = .updateIbtc c tb
  · obtain ⟨c,tb,rfl⟩ := hupdate
    exact entriesValid_updateIbtc h hs
  obtain ⟨hworld,hevents⟩ := Traced.step_some hs
  have hother : ∀ c tb, call ≠ .updateIbtc c tb := fun c tb heq => hupdate ⟨c,tb,heq⟩
  apply entriesValid_of_kept h (kept_step hother hworld)
  intro c slot block hblock hval
  rw [hevents]
  by_cases hinvalidate : ∃ tb pageAddr, call = .physInvalidate tb pageAddr
  · obtain ⟨tb,pageAddr,rfl⟩ := hinvalidate
    refine ⟨?_,hval⟩
    rintro rfl
    exact hcond c slot hblock
  · rw [eventsOf_eq_nil hother fun tb pageAddr heq => hinvalidate ⟨tb,pageAddr,heq⟩]
    exact hval

/-- Nothing in `tb_phys_invalidate` touches the tables, so a block it finds in one
stays there. -/
theorem invalidatesUnheld_of_entriesValid (h : EntriesValid after)
    (hs : s.step cfg call = some after) : InvalidatesUnheld s call := by
  cases call with
  | physInvalidate tb pageAddr =>
    intro c slot hheld
    obtain ⟨hworld,hevents⟩ := Traced.step_some hs
    obtain ⟨ptb,links,-,-,hafter⟩ := tbPhysInvalidate_some hworld
    have hsame : (after.world.cpus c).ibtc = (s.world.cpus c).ibtc := by
      rw [hafter]
      dsimp only
      split <;> rfl
    have hval := h c slot tb (by rw [hsame,hheld])
    rw [hevents] at hval
    exact hval.1 rfl
  | _ => trivial

/-- Every hit in the course of a run is on a block that is still valid exactly when
the run never invalidates a block that some table holds. -/
theorem hits_valid_iff_invalidates_unheld (cfg : Config) (calls : List (Call n)) :
    Always (Traced.step cfg) (HitsValid cfg) (Traced.empty n) calls ↔
      Meets (Traced.step cfg) InvalidatesUnheld (Traced.empty n) calls := by
  refine always_iff_meets (fun s => Placed s.world) ?_ ?_ ?_ ?_ ?_
  · intro s call after hplace hs
    exact placed_step hplace (Traced.step_some hs).1
  · intro s call after hplace hval hcond hs
    have hafter : Placed after.world := placed_step hplace (Traced.step_some hs).1
    rw [hitsValid_iff s hplace] at hval
    rw [hitsValid_iff after hafter]
    exact entriesValid_step hval hcond hs
  · intro s call after hplace _ hval hs
    have hafter : Placed after.world := placed_step hplace (Traced.step_some hs).1
    rw [hitsValid_iff after hafter] at hval
    exact invalidatesUnheld_of_entriesValid hval hs
  · intro c slot hfield
    exact absurd rfl hfield
  · intro c state eip tb hhit
    rw [hits_iff] at hhit
    simp [Traced.empty,emptyWorld,emptyCpu] at hhit

/-- One block is translated, entered in the table after a miss and invalidated;
the table still leads to it. -/
theorem invalidated_block_hit :
    ∃ s, run (Traced.step smallConfig) (Traced.empty 1)
        [.genCode 0 ⟨0x1000, 0, 0⟩ 0 (some smallBlock), .runGuest 0 ⟨0x1000, 0, 0⟩,
          .lookupIbtc 0 0x1000, .updateIbtc 0 0, .physInvalidate 0 none] = some s ∧
      ¬ HitsValid smallConfig s := by
  refine ⟨_,rfl,fun h => ?_⟩
  have hval := h 0 ⟨0x1000,0,0⟩ 0x1000 0 ⟨_,rfl⟩
  exact hval.1 rfl

end Hqemu.Exec.Ibtc
