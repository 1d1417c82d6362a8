import Hqemu.Exec.Store

/-! The targets of region exits, patched after a lookup or when a region is formed. -/
namespace Hqemu.Llvm.Chaining

open Function Option Exec Exec.World Exec.Store Lib.Run

variable {n : Nat} {cfg : Config} {w next : World n}

/-- A patched exit leads to a block for the state in which it is taken, which `tb_find_fast` returns
for it (`tbFindFast_tbCpuState`). -/
def ExitsMatch (w : World n) : Prop :=
  ∀ addr exit tb, w.llvm.exits addr = some exit → exit.target = some tb →
    tb < w.nbTbs ∧ w.tbCpuState tb = exit.state

/-- The exits chained to a new region's entry block are for its segment base and
flags, not only for its address. -/
def ChainsAlike (w : World n) : Call n → Prop
  | .finishTrace entryTb _ cacheVersion =>
    w.llvm.llvmFlush = false → w.tbFlushVersion = cacheVersion →
      ∀ addr exit, addr ∈ w.llvm.traceChain (w.desc entryTb).pc →
        w.llvm.exits addr = some exit →
          entryTb < w.nbTbs ∧ exit.state.csBase = (w.desc entryTb).csBase ∧
            exit.state.flags = (w.desc entryTb).flags
  | _ => True

structure Registered (w : World n) : Prop where
  listed : ∀ pc addr, addr ∈ w.llvm.traceChain pc →
    ∃ exit, w.llvm.exits addr = some exit ∧ exit.state.pc = pc
  key : ∀ addr exit, w.llvm.exits addr = some exit →
    w.llvm.chainPoint[exit.key]? = some addr

def Steady (w next : World n) : Prop :=
  next.llvm = emptyLlvmEnv ∨
    next.llvm = w.llvm ∧ w.nbTbs ≤ next.nbTbs ∧
      ∀ tb < w.nbTbs, next.tbCpuState tb = w.tbCpuState tb

theorem Steady.trans {last : World n} (h : Steady w next) (hlast : Steady next last) :
    Steady w last := by
  rcases hlast with hempty | ⟨hllvm,hle,hstate⟩
  · exact .inl hempty
  rcases h with hempty | ⟨hllvm',hle',hstate'⟩
  · exact .inl (hllvm.trans hempty)
  · refine .inr ⟨hllvm.trans hllvm',Nat.le_trans hle' hle,fun tb htb => ?_⟩
    rw [hstate tb (Nat.lt_of_lt_of_le htb hle'),hstate' tb htb]

theorem steady_of_same (hllvm : next.llvm = w.llvm) (hnbTbs : next.nbTbs = w.nbTbs)
    (hstate : ∀ tb, next.tbCpuState tb = w.tbCpuState tb) : Steady w next :=
  Or.inr ⟨hllvm,Nat.le_of_eq hnbTbs.symm,fun tb _ => hstate tb⟩

theorem Registered.of_steady (h : Registered w) (hsteady : Steady w next) : Registered next := by
  rcases hsteady with hempty | ⟨hllvm,-,-⟩
  · refine ⟨fun pc addr haddr => ?_,fun addr exit hexit => ?_⟩
    · rw [hempty] at haddr
      cases haddr
    · rw [hempty] at hexit
      cases hexit
  · refine ⟨?_,?_⟩
    · rw [hllvm]
      exact h.listed
    · rw [hllvm]
      exact h.key

theorem ExitsMatch.of_steady (h : ExitsMatch w) (hsteady : Steady w next) : ExitsMatch next := by
  intro addr exit tb hexit htarget
  rcases hsteady with hempty | ⟨hllvm,hle,hstate⟩
  · rw [hempty] at hexit
    cases hexit
  · rw [hllvm] at hexit
    have hmatch := h addr exit tb hexit htarget
    rw [hstate tb hmatch.1]
    exact ⟨Nat.lt_of_lt_of_le hmatch.1 hle,hmatch.2⟩

theorem steady_tbFlush {c : Fin n} (h : w.tbFlush cfg c = some next) : Steady w next := by
  unfold tbFlush at h
  split at h
  · cases h
  · cases h
    exact .inl rfl

theorem steady_translated {base : World n} {state : TbCpuState} {found : Option TbId}
    (h : Translated cfg base state next found) : Steady base next := by
  refine .inr ⟨h.llvm,?_,fun tb htb => ?_⟩
  · rw [h.nbTbs]
    exact Nat.le_succ _
  · unfold tbCpuState
    rw [h.desc tb (Nat.ne_of_lt htb)]

theorem steady_composes {c : Fin n} : Composes cfg c Steady where
  refl _ := steady_of_same rfl rfl fun _ => rfl
  trans := Steady.trans
  flag _ := steady_of_same rfl rfl fun _ => rfl
  profile w tb := steady_of_same (by simp) (by simp) (startProfileIfCold_tbCpuState w tb)
  cache _ _ _ := steady_of_same rfl rfl fun _ => rfl
  flush := steady_tbFlush
  translated := steady_translated

theorem steady_lookupIbtc (w : World n) (c : Fin n) (eip : Nat) :
    Steady w (w.helperLookupIbtc cfg c eip).1 := by
  rcases helperLookupIbtc_world cfg w c eip with hsame | hmiss
  · rw [hsame]
    exact steady_of_same rfl rfl fun _ => rfl
  · rw [hmiss]
    exact steady_of_same rfl rfl fun _ => rfl

theorem steady_updateIbtcEntry (w : World n) (c : Fin n) (tb : TbId) :
    Steady w (w.updateIbtcEntry c tb) := by
  unfold updateIbtcEntry
  refine Steady.trans ?_ (steady_of_same (by simp) (by simp) (startProfileIfCold_tbCpuState _ tb))
  refine Steady.trans ?_ (steady_of_same rfl rfl fun _ => rfl)
  split
  · exact steady_of_same rfl rfl fun _ => rfl
  · exact steady_of_same rfl rfl fun _ => rfl

theorem Registered.emitExit (h : Registered w) {addr : Nat} (hnew : w.llvm.exits addr = none)
    (state : TbCpuState) : Registered (w.emitExit addr state) := by
  have hold : ∀ pc other, other ∈ w.llvm.traceChain pc → other ≠ addr := by
    intro pc other hother heq
    obtain ⟨exit,hexit,-⟩ := h.listed pc other hother
    rw [heq,hnew] at hexit
    cases hexit
  constructor
  · intro pc other hother
    rw [emitExit_llvm] at hother ⊢
    by_cases hpc : pc = state.pc
    · subst hpc
      simp only [update_self,List.mem_append,List.mem_singleton] at hother
      rcases hother with hother | rfl
      · have hlist := h.listed state.pc other hother
        simpa [update_of_ne (hold state.pc other hother)] using hlist
      · exact ⟨_,update_self _ _ _,rfl⟩
    · simp only [update_of_ne hpc] at hother
      have hlist := h.listed pc other hother
      simpa [update_of_ne (hold pc other hother)] using hlist
  · intro other exit hexit
    rw [emitExit_llvm] at hexit ⊢
    by_cases hother : other = addr
    · subst hother
      simp only [update_self,some.injEq] at hexit
      subst hexit
      simp
    · simp only [update_of_ne hother] at hexit
      have hkey := h.key other exit hexit
      have hlt : exit.key < w.llvm.chainPoint.length := (List.getElem?_eq_some_iff.mp hkey).1
      rw [List.getElem?_append_left hlt]
      exact hkey

theorem ExitsMatch.emitExit (h : ExitsMatch w) (addr : Nat) (state : TbCpuState) :
    ExitsMatch (w.emitExit addr state) := by
  intro other exit tb hexit htarget
  rw [emitExit_llvm] at hexit
  by_cases hother : other = addr
  · subst hother
    simp only [update_self,some.injEq] at hexit
    subst hexit
    cases htarget
  · simp only [update_of_ne hother] at hexit
    exact h other exit tb hexit htarget

theorem Registered.patched {addrs : List Nat} {tb : TbId} (h : Registered w)
    (hpatch : Patched w addrs tb next) : Registered next := by
  constructor
  · intro pc addr haddr
    rw [hpatch.traceChain] at haddr
    obtain ⟨exit,hexit,hpc⟩ := h.listed pc addr haddr
    rw [hpatch.exits,hexit]
    split
    · exact ⟨_,rfl,hpc⟩
    · exact ⟨exit,rfl,hpc⟩
  · intro addr exit hexit
    obtain ⟨old,hold,hkey,-,-⟩ := hpatch.before hexit
    rw [hpatch.chainPoint,← hkey]
    exact h.key addr old hold

theorem ExitsMatch.patched {addrs : List Nat} {tb : TbId} (h : ExitsMatch w)
    (hpatch : Patched w addrs tb next) (hmatch : ∀ addr ∈ addrs, ∀ exit, w.llvm.exits addr = some
        exit →
      tb < w.nbTbs ∧ w.tbCpuState tb = exit.state) : ExitsMatch next := by
  intro addr exit target hexit htarget
  obtain ⟨old,hold,-,hstate,hcase⟩ := hpatch.before hexit
  rw [hpatch.nbTbs,hpatch.tbCpuState,← hstate]
  rcases hcase with ⟨hmem,hnew⟩ | ⟨-,hsame⟩
  · rw [htarget] at hnew
    cases hnew
    exact hmatch addr hmem old hold
  · rw [htarget] at hsame
    exact h addr old target hold hsame.symm

theorem chainNext_region {key : Nat} {tb : TbId} (h : w.chainNext (.region key) tb = some next) :
    Steady w next ∨ ∃ addr, w.llvm.chainPoint[key]? = some addr ∧ Patched w [addr] tb next := by
  unfold chainNext at h
  split at h
  · cases h
    exact .inl (steady_of_same rfl rfl fun _ => rfl)
  · simp only [llvmResolveAddress,startProfileIfCold_same,bind_eq_bind,bind_eq_some_iff] at h
    obtain ⟨addr,haddr,h⟩ := h
    cases h
    split
    · refine .inr ⟨addr,haddr,?_⟩
      refine ⟨by simp [patchExit],by simp [patchExit],fun other => ?_,by simp [patchExit],
        startProfileIfCold_tbCpuState w tb⟩
      by_cases hother : other = addr
      · subst hother
        simp [patchExit]
      · simp [patchExit,hother]
    · exact .inl (steady_of_same (by simp) (by simp) (startProfileIfCold_tbCpuState w tb))

theorem leaveRegion_keeps {c : Fin n} {addr : Nat} {gen : Option GenCode} (hclean : Clean w)
    (hreg : Registered w) (h : w.leaveRegion cfg c addr gen = some next) :
    Registered next ∧ (ExitsMatch w → ExitsMatch next) := by
  simp only [leaveRegion,bind_eq_bind,bind_eq_some_iff,Prod.exists] at h
  obtain ⟨exit,hexit,mid,found,hfind,h⟩ := h
  have hguest : Steady w (w.runGuest c exit.state) := steady_of_same rfl rfl fun _ => rfl
  have hmid : Steady w mid := hguest.trans (steady_composes.findFast (tbFindFast_some hfind))
  cases found with
  | none =>
    cases h
    exact ⟨hreg.of_steady hmid,fun hexits => hexits.of_steady hmid⟩
  | some tb =>
    rcases chainNext_region h with hnext | ⟨resolved,hres,hpatch⟩
    · exact ⟨hreg.of_steady (hmid.trans hnext),fun hexits => hexits.of_steady (hmid.trans hnext)⟩
    · refine ⟨(hreg.of_steady hmid).patched hpatch,fun hexits => ?_⟩
      apply (hexits.of_steady hmid).patched hpatch
      intro other hother old hold
      have hcur : Current mid tb :=
        ((hclean.runGuest c exit.state).findFast (tbFindFast_some hfind)).2 tb rfl
      have hcleanMid : Clean mid :=
        ((hclean.runGuest c exit.state).findFast (tbFindFast_some hfind)).1
      have hstate : mid.tbCpuState tb = exit.state := by
        rw [tbFindFast_tbCpuState hfind]
        simp [runGuest]
      rcases hmid with hempty | ⟨hllvm,-,-⟩
      · rw [hempty] at hold
        cases hold
      · have hkey := hreg.key addr exit hexit
        rw [hllvm,hkey] at hres
        rw [List.mem_singleton] at hother
        cases hres
        subst hother
        rw [hllvm,hexit] at hold
        cases hold
        exact ⟨hcleanMid.index tb hcur,hstate⟩

theorem finishTrace_keeps {entryTb : TbId} {code cacheVersion : Nat} (hreg : Registered w) :
    Registered (w.finishTrace entryTb code cacheVersion) ∧
      (ExitsMatch w → ChainsAlike w (.finishTrace entryTb code cacheVersion) →
        ExitsMatch (w.finishTrace entryTb code cacheVersion)) := by
  by_cases hgood : w.llvm.llvmFlush = false ∧ w.tbFlushVersion = cacheVersion
  · have hpatch := patched_finishTrace w entryTb code hgood.1
    rw [hgood.2] at hpatch
    refine ⟨hreg.patched hpatch,fun hexits hcond => ?_⟩
    apply hexits.patched hpatch
    intro addr haddr exit hexit
    have hentry := hcond hgood.1 hgood.2 addr exit haddr hexit
    obtain ⟨listed,hlist,hpc⟩ := hreg.listed _ addr haddr
    rw [hexit] at hlist
    cases hlist
    refine ⟨hentry.1,?_⟩
    unfold tbCpuState
    rw [← hpc,← hentry.2.1,← hentry.2.2]
  · rw [finishTrace_dropped w entryTb code cacheVersion hgood]
    exact ⟨hreg,fun hexits _ => hexits⟩

theorem step_keeps {call : Call n} (hclean : Clean w) (hreg : Registered w)
    (h : w.step cfg call = some next) :
    Registered next ∧ (ExitsMatch w → ChainsAlike w call → ExitsMatch next) := by
  have hsteady : Steady w next →
      Registered next ∧ (ExitsMatch w → ChainsAlike w call → ExitsMatch next) := fun hnext =>
    ⟨hreg.of_steady hnext,fun hexits _ => hexits.of_steady hnext⟩
  cases call with
  | runGuest c state =>
    cases h
    exact hsteady (steady_of_same rfl rfl fun _ => rfl)
  | findFast c gen =>
    obtain ⟨found,h⟩ := exists_of_map_fst h
    exact hsteady (steady_composes.findFast (tbFindFast_some h))
  | genCode c state cflags gen =>
    obtain ⟨found,h⟩ := exists_of_map_fst h
    exact hsteady (steady_composes.genCode h)
  | lookupIbtc c eip =>
    cases (ite_none_left_eq_some.mp h).2
    exact hsteady (steady_lookupIbtc w c eip)
  | updateIbtc c tb =>
    cases h
    exact hsteady (steady_updateIbtcEntry w c tb)
  | physInvalidate tb pageAddr =>
    obtain ⟨ptb,links,-,-,rfl⟩ := tbPhysInvalidate_some h
    exact hsteady (steady_of_same rfl rfl fun _ => rfl)
  | flush c => exact hsteady (steady_tbFlush h)
  | requestFlush =>
    cases h
    exact ⟨⟨hreg.listed,hreg.key⟩,fun hexits _ => hexits⟩
  | emitExit addr state =>
    obtain ⟨hnew,hsome⟩ := ite_none_right_eq_some.mp h
    cases hsome
    exact ⟨hreg.emitExit hnew.2 state,fun hexits _ => hexits.emitExit addr state⟩
  | finishTrace entryTb code cacheVersion =>
    cases h
    exact finishTrace_keeps hreg
  | leaveRegion c addr gen =>
    have hleave := leaveRegion_keeps hclean hreg h
    exact ⟨hleave.1,fun hexits _ => hleave.2 hexits⟩

theorem chainsAlike_of_exitsMatch {call : Call n} (hexits : ExitsMatch next)
    (h : w.step cfg call = some next) : ChainsAlike w call := by
  cases call with
  | finishTrace entryTb code cacheVersion =>
    intro hflush hver addr exit haddr hexit
    subst hver
    cases h
    have hpatch := patched_finishTrace w entryTb code hflush
    have hnew := hpatch.exits addr
    rw [if_pos haddr,hexit] at hnew
    have hmatch := hexits addr _ entryTb hnew rfl
    rw [hpatch.nbTbs,hpatch.tbCpuState] at hmatch
    have hstate : w.tbCpuState entryTb = exit.state := hmatch.2
    rw [← hstate]
    exact ⟨hmatch.1,rfl,rfl⟩
  | _ => trivial

/-- Patched exits lead where the dispatcher would go exactly when each region's entry block has the
segment base and flags of every exit to its address. -/
theorem exits_match_iff_chains_alike (cfg : Config) (calls : List (Call n)) :
    Always (World.step cfg) ExitsMatch (emptyWorld n) calls ↔
      Meets (World.step cfg) ChainsAlike (emptyWorld n) calls := by
  refine always_iff_meets (fun w => Clean w ∧ Registered w) ?_ ?_ ?_ ?_ ?_
  · intro w call next hw hs
    exact ⟨hw.1.step hs,(step_keeps hw.1 hw.2 hs).1⟩
  · intro w call next hw hexits hcond hs
    exact (step_keeps hw.1 hw.2 hs).2 hexits hcond
  · intro w call next hw _ hexits hs
    exact chainsAlike_of_exitsMatch hexits hs
  · exact ⟨clean_emptyWorld n,nofun,nofun⟩
  · exact nofun

/-- Two blocks at one address differ in their flags. A region's exit, taken with the flags of the
first, is redirected to the region of the second. -/
theorem exit_chained_across_flags :
    ∃ w, run (World.step smallConfig) (emptyWorld 1)
        [.genCode 0 ⟨0x1000, 0, 0⟩ 0 (some smallBlock),
          .genCode 0 ⟨0x1000, 0, 1⟩ 0 (some smallBlock),
          .emitExit 0x40 ⟨0x1000, 0, 0⟩, .leaveRegion 0 0x40 none,
          .finishTrace 1 0x80 0] = some w ∧
      ¬ ExitsMatch w := by
  refine ⟨_,rfl,fun h => ?_⟩
  have hmatch := h 0x40 ⟨0,⟨0x1000,0,0⟩,some 1⟩ 1 rfl rfl
  have hflags : (1 : Nat) = 0 := congrArg TbCpuState.flags hmatch.2
  cases hflags

end Hqemu.Llvm.Chaining
