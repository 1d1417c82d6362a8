import Hqemu.Llvm.Regions

/-! What each function of the block store can change; later modules unfold none of them again. -/
namespace Hqemu.Exec

open Function Option Lib.Chain

namespace Links

structure Unchains (links changed : Links) : Prop where
  hash : changed.hash = links.hash
  jmpTarget : ∀ x, changed.jmpTarget x = links.jmpTarget x ∨
    changed.jmpTarget x = .stub x.1 x.2

variable {cfg : Config} {links changed : Links}

theorem Unchains.refl (links : Links) : Unchains links links := ⟨rfl,fun _ => .inl rfl⟩

theorem Unchains.trans {last : Links} (h : Unchains links changed)
    (hlast : Unchains changed last) : Unchains links last := by
  refine ⟨hlast.hash.trans h.hash,fun x => ?_⟩
  rcases hlast.jmpTarget x with hkeep | hstub
  · rw [hkeep]
    exact h.jmpTarget x
  · exact .inr hstub

theorem unchains_setJmp (links : Links) (loc : JmpLoc) (value : Option JmpLoc) :
    Unchains links (links.setJmp loc value) :=
  ⟨rfl,fun _ => .inl rfl⟩

theorem unchains_tbResetJump (links : Links) (tb : TbId) (n : Slot) :
    Unchains links (links.tbResetJump tb n) := by
  refine ⟨rfl,fun x => ?_⟩
  by_cases hx : x = (tb,n)
  · subst hx
    exact .inr (update_self _ _ _)
  · exact .inl (update_of_ne hx _ _)

variable {tb : TbId}

theorem tbJmpRemove_unchains {n : Slot} (h : links.tbJmpRemove cfg tb n = some changed) :
    Unchains links changed := by
  unfold tbJmpRemove at h
  split at h
  · cases h
    exact Unchains.refl links
  · simp only [bind_eq_bind,bind_eq_some_iff] at h
    obtain ⟨ptb,-,h⟩ := h
    cases h
    exact (unchains_setJmp links _ _).trans (unchains_setJmp _ _ _)

theorem suppressJumps_unchains {limit : Nat} {ptr : Option JmpLoc}
    (h : suppressJumps limit links ptr = some changed) : Unchains links changed := by
  induction limit generalizing links ptr with
  | zero => simp [suppressJumps] at h
  | succ limit ih =>
    match ptr, h with
    | some (.first _), h =>
      cases h
      exact Unchains.refl _
    | some (.next tb1 n1), h =>
      have hreset := unchains_tbResetJump links tb1 n1
      exact (hreset.trans (unchains_setJmp _ _ _)).trans (ih h)

theorem leavePage_unchains {page pageAddr : Option Nat}
    (h : links.leavePage cfg tb page pageAddr = some changed) : Unchains links changed := by
  unfold leavePage at h
  split at h
  · cases h
    exact Unchains.refl links
  · split at h
    · cases h
      exact Unchains.refl links
    · simp only [tbPageRemove,bind_eq_bind,bind_eq_some_iff] at h
      obtain ⟨removed,⟨ptb,-,node,-,hremoved⟩,h⟩ := h
      cases hremoved
      cases h
      exact ⟨rfl,fun _ => .inl rfl⟩

theorem tbRemove_some {h : Nat} (heq : links.tbRemove cfg h tb = some changed) :
    ∃ ptb, links.hash ptb = some tb ∧ changed = links.setHash ptb (links.hash (.next tb)) := by
  simp only [tbRemove,bind_eq_bind,bind_eq_some_iff] at heq
  obtain ⟨ptb,hfind,heq⟩ := heq
  obtain ⟨node,hnode,hhit⟩ := findLink_some hfind
  cases heq
  rw [beq_iff_eq] at hhit
  subst hhit
  exact ⟨ptb,hnode,rfl⟩

theorem tbAllocPage_links (cfg : Config) (links : Links) (tb : TbId) (n : Slot) (addr : Nat) :
    let next := links.tbAllocPage cfg tb n addr
    next.hash = links.hash ∧ next.jmp = links.jmp ∧ next.jmpTarget = links.jmpTarget ∧
      next.pageAddr = update links.pageAddr (tb,n) (some addr) ∧
      next.page = update (update links.page (.next tb n)
        (links.page (.firstTb (pageIndex cfg addr)))) (.firstTb (pageIndex cfg addr))
        (some (tb,n)) := by
  unfold tbAllocPage protectPage
  dsimp only
  split <;> exact ⟨rfl,rfl,rfl,rfl,rfl⟩

theorem slot_cases : ∀ n : Slot, n = 0 ∨ n = 1 := by
  decide

theorem tbResetJump_jmpTarget (links : Links) (tb : TbId) (n : Slot) (x : TbId × Slot) :
    (links.tbResetJump tb n).jmpTarget x =
      if x = (tb,n) then .stub tb n else links.jmpTarget x :=
  update_apply _ _ _ _

theorem tbLinkPage_jmpTarget (links : Links) (tb : TbId) (nextOffset : Slot → Option Nat)
    (physPc : Nat) (physPage2 : Option Nat) (x : TbId × Slot) :
    (links.tbLinkPage cfg tb nextOffset physPc physPage2).jmpTarget x =
      if x.1 = tb ∧ (nextOffset x.2).isSome then .stub x.1 x.2 else links.jmpTarget x := by
  obtain ⟨b,m⟩ := x
  unfold tbLinkPage
  dsimp only
  rcases slot_cases m with rfl | rfl
  · split <;> split <;> cases physPage2 <;> simp_all [tbResetJump_jmpTarget,setJmp,setHash,
      tbAllocPage_links]
  · split <;> split <;> cases physPage2 <;> simp_all [tbResetJump_jmpTarget,setJmp,setHash,
      tbAllocPage_links]

theorem tbLinkPage_hash (links : Links) (tb : TbId) (nextOffset : Slot → Option Nat)
    (physPc : Nat) (physPage2 : Option Nat) :
    (links.tbLinkPage cfg tb nextOffset physPc physPage2).hash =
      update
        (update links.hash (.next tb) (links.hash (.bucket (tbPhysHashFunc physPc))))
        (.bucket (tbPhysHashFunc physPc)) (some tb) := by
  unfold tbLinkPage
  dsimp only
  split <;> split <;> cases physPage2 <;>
    simp [tbResetJump,tbSetJmpTarget,setJmp,setHash,tbAllocPage_links]

end Links

namespace World

variable {n : Nat} {cfg : Config} {w next : World n} {c : Fin n}

@[simp] theorem startProfileIfCold_same (w : World n) (tb : TbId) :
    let next := w.startProfileIfCold tb
    next.links = w.links ∧ next.cpus = w.cpus ∧ next.nbTbs = w.nbTbs ∧ next.llvm = w.llvm ∧
      next.tbFlushVersion = w.tbFlushVersion ∧ next.codeGenPtr = w.codeGenPtr := by
  unfold startProfileIfCold
  split <;> exact ⟨rfl,rfl,rfl,rfl,rfl,rfl⟩

theorem startProfileIfCold_desc (w : World n) (tb x : TbId) :
    ∃ mode entry, (w.startProfileIfCold tb).desc x =
      { w.desc x with mode := mode, jmpEntry := entry } := by
  unfold startProfileIfCold
  split
  · by_cases hx : x = tb
    · subst hx
      exact ⟨1,.profileStub,update_self _ _ _⟩
    · exact ⟨_,_,update_of_ne hx _ _⟩
  · exact ⟨_,_,rfl⟩

structure Allocated (base : World n) (pc : Nat) (next : World n) (tb : TbId) : Prop where
  tb_eq : tb = base.nbTbs
  cpus : next.cpus = base.cpus
  llvm : next.llvm = base.llvm
  links : next.links = base.links
  tbFlushVersion : next.tbFlushVersion = base.tbFlushVersion
  nbTbs : next.nbTbs = base.nbTbs+1
  desc : next.desc = Function.update base.desc tb
    { base.desc tb with pc := pc, cflags := 0, mode := 0, execCount := 0 }

variable {tb : TbId}

theorem tbAlloc_some {pc : Nat} (h : w.tbAlloc cfg pc = some (next,tb)) :
    w.tbAllocRefused cfg = false ∧ Allocated w pc next tb := by
  unfold tbAlloc at h
  split at h
  · cases h
  rename_i href
  cases h
  exact ⟨by simpa using href,rfl,rfl,rfl,rfl,rfl,rfl,rfl⟩

def AllocBase (cfg : Config) (w : World n) (c : Fin n) (base : World n) : Prop :=
  w.tbAllocRefused cfg = false ∧ base = w ∨
    w.tbAllocRefused cfg = true ∧ w.tbFlush cfg c = some base

theorem tbAllocFlushing_some {pc : Nat} (h : w.tbAllocFlushing cfg c pc = some (next,tb)) :
    ∃ base, AllocBase cfg w c base ∧ Allocated base pc next tb := by
  unfold tbAllocFlushing at h
  cases halloc : w.tbAlloc cfg pc with
  | some result =>
    rw [halloc] at h
    cases h
    obtain ⟨href,hall⟩ := tbAlloc_some halloc
    exact ⟨w,.inl ⟨href,rfl⟩,hall⟩
  | none =>
    have href : w.tbAllocRefused cfg = true := by
      by_contra hfalse
      simp [tbAlloc,hfalse] at halloc
    simp only [halloc,bind_eq_bind,bind_eq_some_iff,Prod.exists] at h
    obtain ⟨base,hflush,opened,tb',hagain,h⟩ := h
    cases h
    obtain ⟨-,hall⟩ := tbAlloc_some hagain
    exact ⟨base,.inr ⟨href,hflush⟩,{ hall with }⟩

structure Translated (cfg : Config) (base : World n) (state : TbCpuState) (next : World n)
    (found : Option TbId) : Prop where
  cpus : next.cpus = base.cpus
  llvm : next.llvm = base.llvm
  tbFlushVersion : next.tbFlushVersion = base.tbFlushVersion
  nbTbs : next.nbTbs = base.nbTbs+1
  desc : ∀ tb, tb ≠ base.nbTbs → next.desc tb = base.desc tb
  optVersion : (next.desc base.nbTbs).optVersion = some base.tbFlushVersion
  faulted : found = none → next.links = base.links ∧
    (next.desc base.nbTbs).version = (base.desc base.nbTbs).version ∧
    (next.desc base.nbTbs).nextOffset = (base.desc base.nbTbs).nextOffset
  linked : ∀ tb, found = some tb → tb = base.nbTbs ∧ next.tbCpuState tb = state ∧
    (next.desc tb).version = some base.tbFlushVersion ∧
    ∃ physPage2, next.links =
      base.links.tbLinkPage cfg tb (next.desc tb).nextOffset state.pc physPage2

variable {base : World n} {state : TbCpuState}

theorem Allocated.openTb {opened : World n} (h : Allocated base state.pc opened tb) (cflags : Nat) :
    Translated cfg base state (opened.openTb tb state cflags) none := by
  obtain ⟨rfl,hcpus,hllvm,hlinks,hver,hnbTbs,hdesc⟩ := h
  refine ⟨hcpus,hllvm,hver,hnbTbs,fun tb htb => ?_,?_,fun _ => ⟨hlinks,?_,?_⟩,nofun⟩
  · simp [World.openTb,hdesc,htb]
  · simp [World.openTb,hver]
  · simp [World.openTb,hdesc]
  · simp [World.openTb,hdesc]

theorem Allocated.closeTb {opened : World n} (h : Allocated base state.pc opened tb) (cflags : Nat)
    (gen : GenCode) :
    Translated cfg base state
      ((opened.openTb tb state cflags).closeTb cfg tb state.pc gen) (some tb) := by
  obtain ⟨rfl,hcpus,hllvm,hlinks,hver,hnbTbs,hdesc⟩ := h
  refine ⟨hcpus,hllvm,hver,hnbTbs,fun tb htb => ?_,?_,nofun,?_⟩
  · simp [World.openTb,World.closeTb,hdesc,htb]
  · simp [World.openTb,World.closeTb,hver]
  · intro tb htb
    cases htb
    simp only [World.closeTb,World.openTb,tbCpuState,updateDesc_desc,updateDesc_links,
      update_self,updateDesc_tbFlushVersion,hdesc,hver,hlinks,true_and]
    exact ⟨_,rfl⟩

variable {gen : Option GenCode} {found : Option TbId}

theorem tbGenCode_some {cflags : Nat} (h : w.tbGenCode cfg c state cflags gen = some (next,found)) :
    ∃ base, AllocBase cfg w c base ∧ Translated cfg base state next found := by
  simp only [tbGenCode,bind_eq_bind,bind_eq_some_iff,Prod.exists] at h
  obtain ⟨opened,tb,halloc,h⟩ := h
  obtain ⟨base,hbase,hall⟩ := tbAllocFlushing_some halloc
  refine ⟨base,hbase,?_⟩
  cases gen with
  | none =>
    cases h
    exact hall.openTb cflags
  | some gen =>
    cases h
    exact hall.closeTb cflags gen

inductive FindFast (cfg : Config) (w : World n) (c : Fin n) : World n → Option TbId → Prop
  | cached (tb : TbId) (hhit : w.tbJmpCacheHit cfg c (w.cpus c).state = some tb) :
      FindFast cfg w c (w.startProfileIfCold tb) (some tb)
  | hashed (tb : TbId)
      (hfound : search w.links.hash HashLoc.next
        (w.matchesSlow cfg (w.cpus c).state) cfg.walkLimit
        (.bucket (tbPhysHashFunc (w.cpus c).state.pc)) = some (some tb)) :
      FindFast cfg w c
        (({ w with tbInvalidatedFlag := false }.startProfileIfCold tb).setTbJmpCache cfg c
          (w.cpus c).state.pc tb) (some tb)
  | translated (base mid : World n) (tb : TbId) (hmiss : w.findMisses cfg c = true)
      (hbase : AllocBase cfg { w with tbInvalidatedFlag := false } c base)
      (hmid : Translated cfg base (w.cpus c).state mid (some tb)) :
      FindFast cfg w c (mid.setTbJmpCache cfg c (w.cpus c).state.pc tb) (some tb)
  | faulted (base mid : World n) (hmiss : w.findMisses cfg c = true)
      (hbase : AllocBase cfg { w with tbInvalidatedFlag := false } c base)
      (hmid : Translated cfg base (w.cpus c).state mid none) :
      FindFast cfg w c mid none

theorem tbFindFast_some (h : w.tbFindFast cfg c gen = some (next,found)) :
    FindFast cfg w c next found := by
  simp only [tbFindFast] at h
  split at h
  · rename_i tb hhit
    cases h
    exact .cached tb hhit
  · rename_i hcache
    simp only [tbFindSlow,bind_eq_bind,bind_eq_some_iff] at h
    obtain ⟨result,hsource,h⟩ := h
    cases result with
    | some tb =>
      cases h
      exact .hashed tb hsource
    | none =>
      simp only [bind_eq_some_iff,Prod.exists] at h
      obtain ⟨mid,found,hgen,h⟩ := h
      obtain ⟨base,hbase,hmid⟩ := tbGenCode_some hgen
      have hmiss : w.findMisses cfg c = true := by
        simp only [findMisses,hcache,isNone_none,Bool.true_and,beq_iff_eq]
        exact hsource
      cases found with
      | none =>
        cases h
        exact .faulted base _ hmiss hbase hmid
      | some tb =>
        cases h
        exact .translated base mid tb hmiss hbase hmid

theorem chainNext_some {nextTb : NextTb} (h : w.chainNext nextTb tb = some next) :
    next.cpus = w.cpus ∧ next.links.hash = w.links.hash ∧
      next.tbFlushVersion = w.tbFlushVersion ∧ next.nbTbs = w.nbTbs ∧
      next.codeGenPtr = w.codeGenPtr ∧
      (next.desc = w.desc ∨ next.desc = (w.startProfileIfCold tb).desc) := by
  unfold chainNext at h
  split at h
  · cases h
    exact ⟨rfl,rfl,rfl,rfl,rfl,.inl rfl⟩
  · cases nextTb with
    | none =>
      cases h
      exact ⟨rfl,rfl,rfl,rfl,rfl,.inl rfl⟩
    | jump tb0 m =>
      cases h
      refine ⟨rfl,?_,rfl,rfl,rfl,.inl rfl⟩
      unfold Links.tbAddJump
      split <;> rfl
    | region key =>
      simp only [bind_eq_bind,bind_eq_some_iff] at h
      obtain ⟨addr,-,h⟩ := h
      cases h
      split <;> simp [patchExit]

theorem chainNext_target {nextTb : NextTb} (h : w.chainNext nextTb tb = some next) :
    (∀ x target, next.links.jmpTarget x = .block target →
      w.links.jmpTarget x = .block target ∨ target = tb) ∧
    ∀ addr exit target, next.llvm.exits addr = some exit → exit.target = some target →
      w.llvm.exits addr = some exit ∨ target = tb := by
  unfold chainNext at h
  split at h
  · cases h
    exact ⟨fun _ _ h => .inl h,fun _ _ _ h _ => .inl h⟩
  · cases nextTb with
    | none =>
      cases h
      exact ⟨fun _ _ h => .inl h,fun _ _ _ h _ => .inl h⟩
    | jump tb0 m =>
      cases h
      refine ⟨fun x target htarget => ?_,fun _ _ _ h _ => .inl h⟩
      unfold Links.tbAddJump at htarget
      split at htarget
      · exact .inl htarget
      simp only [Links.setJmp,Links.tbSetJmpTarget,update_apply] at htarget
      split at htarget
      · cases htarget
        exact .inr rfl
      · exact .inl htarget
    | region key =>
      simp only [llvmResolveAddress,startProfileIfCold_same,bind_eq_bind,bind_eq_some_iff] at h
      obtain ⟨resolved,-,h⟩ := h
      cases h
      split
      · refine ⟨fun x target h => .inl (by simpa [patchExit] using h),
          fun addr exit target hexit htarget => ?_⟩
        simp only [patchExit,startProfileIfCold_same,update_apply] at hexit
        split at hexit
        · simp only [map_eq_some_iff] at hexit
          obtain ⟨old,-,rfl⟩ := hexit
          cases htarget
          exact .inr rfl
        · exact .inl hexit
      · exact ⟨fun x target h => .inl (by simpa using h),
          fun addr exit target h _ => .inl (by simpa using h)⟩

theorem startProfileIfCold_tbCpuState (w : World n) (tb x : TbId) :
    (w.startProfileIfCold tb).tbCpuState x = w.tbCpuState x := by
  obtain ⟨mode,entry,hdesc⟩ := startProfileIfCold_desc w tb x
  simp [tbCpuState,hdesc]

theorem tbFindFast_tbCpuState (h : w.tbFindFast cfg c gen = some (next,some tb)) :
    next.tbCpuState tb = (w.cpus c).state := by
  cases tbFindFast_some h with
  | cached tb hhit =>
    rw [startProfileIfCold_tbCpuState]
    simp only [tbJmpCacheHit,filter_eq_some_iff,decide_eq_true_eq] at hhit
    exact hhit.2
  | hashed tb hfound =>
    have hmatch := (search_some (fun _ => True) (fun _ _ => trivial) (fun _ _ _ _ => trivial)
        hfound).2
    simp only [matchesSlow,decide_eq_true_eq] at hmatch
    simp only [setTbJmpCache,updateCpu_tbCpuState,startProfileIfCold_tbCpuState]
    exact hmatch.1
  | translated base mid tb hmiss hbase hmid =>
    exact (hmid.linked tb rfl).2.1

structure SameGuest (w next : World n) : Prop where
  state : ∀ c, (next.cpus c).state = (w.cpus c).state
  startTracePrediction : ∀ c,
    (next.cpus c).startTracePrediction = (w.cpus c).startTracePrediction
  predictedTb : ∀ c, (next.cpus c).predictedTb = (w.cpus c).predictedTb

theorem sameGuest_of_cpus (h : next.cpus = w.cpus) : SameGuest w next := by
  constructor <;> intro c <;> rw [h]

theorem SameGuest.trans {last : World n} (h : SameGuest w next) (hlast : SameGuest next last) :
    SameGuest w last where
  state c := (hlast.state c).trans (h.state c)
  startTracePrediction c := (hlast.startTracePrediction c).trans (h.startTracePrediction c)
  predictedTb c := (hlast.predictedTb c).trans (h.predictedTb c)

theorem sameGuest_updateCpu (c : Fin n) (f : Cpu → Cpu) (h : ∀ cpu, (f cpu).state = cpu.state ∧
      (f cpu).startTracePrediction = cpu.startTracePrediction ∧
      (f cpu).predictedTb = cpu.predictedTb) : SameGuest w (w.updateCpu c f) := by
  constructor <;> intro d <;> by_cases hd : d = c <;> simp [hd,h]

theorem sameGuest_updateIbtcEntry (w : World n) (c : Fin n) (tb : TbId) :
    SameGuest w (w.updateIbtcEntry c tb) := by
  have htable : SameGuest w (if (w.cpus c).updateIbtc then w.updateIbtcTable c tb else w) := by
    split
    · exact sameGuest_updateCpu c _ fun _ => ⟨rfl,rfl,rfl⟩
    · exact sameGuest_of_cpus rfl
  refine (htable.trans ?_).trans (sameGuest_of_cpus (startProfileIfCold_same _ tb).2.1)
  exact sameGuest_updateCpu c _ fun _ => ⟨rfl,rfl,rfl⟩

theorem sameGuest_tbFlush (h : w.tbFlush cfg c = some next) : SameGuest w next := by
  unfold tbFlush at h
  split at h
  · cases h
  cases h
  have hreset : SameGuest w (w.ibtcReset c) := sameGuest_updateCpu c _ fun _ => ⟨rfl,rfl,rfl⟩
  exact ⟨hreset.state,hreset.startTracePrediction,hreset.predictedTb⟩

structure Composes (cfg : Config) (c : Fin n) (R : World n → World n → Prop) : Prop where
  refl : ∀ w, R w w
  trans : ∀ {w mid next}, R w mid → R mid next → R w next
  flag : ∀ w, R w { w with tbInvalidatedFlag := false }
  profile : ∀ w tb, R w (w.startProfileIfCold tb)
  cache : ∀ w pc tb, R w (w.setTbJmpCache cfg c pc tb)
  flush : ∀ {w next}, w.tbFlush cfg c = some next → R w next
  translated : ∀ {base state next found}, Translated cfg base state next found → R base next

section

variable {R : World n → World n → Prop} (hR : Composes cfg c R)
include hR

theorem Composes.allocBase (h : AllocBase cfg w c base) : R w base := by
  rcases h with ⟨-,rfl⟩ | ⟨-,hflush⟩
  · exact hR.refl base
  · exact hR.flush hflush

theorem Composes.genCode {cflags : Nat}
    (h : w.tbGenCode cfg c state cflags gen = some (next,found)) : R w next := by
  obtain ⟨base,hbase,hnext⟩ := tbGenCode_some h
  exact hR.trans (hR.allocBase hbase) (hR.translated hnext)

theorem Composes.findFast (h : FindFast cfg w c next found) : R w next := by
  have hflag := hR.flag w
  cases h with
  | cached tb hhit => exact hR.profile w tb
  | hashed tb hfound => exact hR.trans (hR.trans hflag (hR.profile _ tb)) (hR.cache ..)
  | translated base mid tb hmiss hbase hmid =>
    have hstart := hR.trans hflag (hR.allocBase hbase)
    exact hR.trans (hR.trans hstart (hR.translated hmid)) (hR.cache ..)
  | faulted base mid hmiss hbase hmid =>
    exact hR.trans (hR.trans hflag (hR.allocBase hbase)) (hR.translated hmid)

end

theorem sameGuest_composes : Composes cfg c SameGuest where
  refl _ := sameGuest_of_cpus rfl
  trans := SameGuest.trans
  flag _ := sameGuest_of_cpus rfl
  profile w tb := sameGuest_of_cpus (startProfileIfCold_same w tb).2.1
  cache _ _ _ := sameGuest_updateCpu c _ fun _ => ⟨rfl,rfl,rfl⟩
  flush := sameGuest_tbFlush
  translated h := sameGuest_of_cpus h.cpus

theorem helperLookupIbtc_world (cfg : Config) (w : World n) (c : Fin n) (eip : Nat) :
    (w.helperLookupIbtc cfg c eip).1 = w ∨
      (w.helperLookupIbtc cfg c eip).1 =
        w.updateCpu c fun cpu => { cpu with cachedEip := eip, updateIbtc := true } := by
  simp only [helperLookupIbtc]
  split
  · split
    · exact .inl rfl
    · split
      · exact .inl rfl
      · exact .inr rfl
  · exact .inr rfl

theorem helperLookupIbtc_optPtr (w : World n) (c : Fin n) (eip : Nat) (tb : TbId) (ptr : CodePtr) :
    (w.helperLookupIbtc cfg c eip).2 = .optPtr tb ptr ↔
      (w.cpus c).ibtc (eip &&& ibtcCacheMask) = ⟨eip,some tb⟩ ∧
        w.ibtcMatches cfg (w.cpus c).state tb = true ∧ (w.desc tb).optPtr = ptr := by
  simp only [helperLookupIbtc]
  rcases hentry : (w.cpus c).ibtc (eip &&& ibtcCacheMask) with ⟨entryEip,block⟩
  by_cases heip : eip = entryEip
  · subst heip
    cases block with
    | none => simp
    | some entryTb =>
      cases hmatch : w.ibtcMatches cfg (w.cpus c).state entryTb with
      | false =>
        simp only [↓reduceIte,hmatch,Bool.false_eq_true,reduceCtorEq,JmpPair.mk.injEq,
          some.injEq,true_and,false_iff,not_and]
        rintro rfl hfalse
        simp [hmatch] at hfalse
      | true =>
        simp only [↓reduceIte,hmatch,IbtcTarget.optPtr.injEq,JmpPair.mk.injEq,some.injEq,true_and]
        constructor
        · rintro ⟨rfl,rfl⟩
          exact ⟨rfl,hmatch,rfl⟩
        · rintro ⟨rfl,-,rfl⟩
          exact ⟨rfl,rfl⟩
  · simp [heip,Ne.symm heip]

theorem helperLookupIbtc_nullTb (cfg : Config) (w : World n) (c : Fin n) (eip : Nat) :
    (w.helperLookupIbtc cfg c eip).2 = .nullTb ↔
      (w.cpus c).ibtc (eip &&& ibtcCacheMask) = ⟨eip,none⟩ := by
  simp only [helperLookupIbtc]
  rcases (w.cpus c).ibtc (eip &&& ibtcCacheMask) with ⟨entryEip,block⟩
  by_cases heip : eip = entryEip
  · subst heip
    cases block with
    | none => simp
    | some entryTb =>
      cases hmatch : w.ibtcMatches cfg (w.cpus c).state entryTb <;> simp [hmatch]
  · simp [heip,Ne.symm heip]

theorem foldl_patchExit (w : World n) (tb : TbId) (addrs : List Nat) :
    addrs.foldl (fun w addr => w.patchExit addr tb) w =
      { w with llvm := { w.llvm with
          exits := fun addr =>
            if addr ∈ addrs then
              (w.llvm.exits addr).map fun exit => { exit with target := some tb }
            else w.llvm.exits addr } } := by
  induction addrs generalizing w with
  | nil => simp
  | cons addr rest ih =>
    rw [List.foldl_cons,ih]
    simp only [patchExit]
    congr 2
    funext other
    by_cases hother : other = addr
    · subst hother
      by_cases hrest : other ∈ rest
      · simp [hrest,comp_def]
      · simp [hrest]
    · simp [hother]

theorem finishTrace_desc (w : World n) (entryTb : TbId) (code cacheVersion : Nat) (tb : TbId) :
    (w.finishTrace entryTb code cacheVersion).desc tb = w.desc tb ∨
      tb = entryTb ∧ (w.finishTrace entryTb code cacheVersion).desc tb =
        { w.desc tb with
          mode := 2
          jmpEntry := .region
          optPtr := .region code
          optVersion := some w.tbFlushVersion } := by
  unfold finishTrace
  split
  · exact .inl rfl
  by_cases htb : tb = entryTb
  · subst htb
    exact .inr ⟨rfl,by simp [traceChaining,foldl_patchExit]⟩
  · exact .inl (by simp [traceChaining,foldl_patchExit,htb])

theorem finishTrace_same (w : World n) (entryTb : TbId) (code cacheVersion : Nat) :
    let next := w.finishTrace entryTb code cacheVersion
    next.cpus = w.cpus ∧ next.links = w.links ∧ next.tbFlushVersion = w.tbFlushVersion ∧
      next.nbTbs = w.nbTbs ∧ next.codeGenPtr = w.codeGenPtr := by
  unfold finishTrace
  split
  · exact ⟨rfl,rfl,rfl,rfl,rfl⟩
  · simp [traceChaining,foldl_patchExit,updateDesc]

theorem emitExit_llvm (w : World n) (addr : Nat) (state : TbCpuState) :
    (w.emitExit addr state).llvm =
      { w.llvm with
        traceChain := update w.llvm.traceChain state.pc (w.llvm.traceChain state.pc ++ [addr])
        chainPoint := w.llvm.chainPoint ++ [addr]
        exits := update w.llvm.exits addr (some ⟨w.llvm.chainPoint.length,state,none⟩) } := by
  simp [emitExit,getChainSlot,notifyExit]

structure Patched (w : World n) (addrs : List Nat) (tb : TbId) (next : World n) : Prop where
  traceChain : next.llvm.traceChain = w.llvm.traceChain
  chainPoint : next.llvm.chainPoint = w.llvm.chainPoint
  exits : ∀ addr, next.llvm.exits addr =
    if addr ∈ addrs then (w.llvm.exits addr).map fun exit => { exit with target := some tb }
    else w.llvm.exits addr
  nbTbs : next.nbTbs = w.nbTbs
  tbCpuState : ∀ tb, next.tbCpuState tb = w.tbCpuState tb

theorem Patched.before {addrs : List Nat} (h : Patched w addrs tb next) {addr : Nat}
    {exit : RegionExit} (hexit : next.llvm.exits addr = some exit) :
    ∃ old, w.llvm.exits addr = some old ∧ old.key = exit.key ∧ old.state = exit.state ∧
      (addr ∈ addrs ∧ exit.target = some tb ∨ addr ∉ addrs ∧ exit.target = old.target) := by
  rw [h.exits] at hexit
  split at hexit
  · rename_i hmem
    simp only [map_eq_some_iff] at hexit
    obtain ⟨old,hold,rfl⟩ := hexit
    exact ⟨old,hold,rfl,rfl,.inl ⟨hmem,rfl⟩⟩
  · rename_i hmem
    exact ⟨exit,hexit,rfl,rfl,.inr ⟨hmem,rfl⟩⟩

theorem patched_finishTrace (w : World n) (entryTb : TbId) (code : Nat)
    (hflush : w.llvm.llvmFlush = false) :
    Patched w (w.llvm.traceChain (w.desc entryTb).pc) entryTb
      (w.finishTrace entryTb code w.tbFlushVersion) := by
  have hgood : w.finishTrace entryTb code w.tbFlushVersion = w.traceChaining entryTb code := by
    simp [finishTrace,hflush]
  refine ⟨?_,?_,?_,(finishTrace_same ..).2.2.2.1,fun tb => ?_⟩
  · rw [hgood]
    simp [traceChaining,foldl_patchExit]
  · rw [hgood]
    simp [traceChaining,foldl_patchExit]
  · rw [hgood]
    simp [traceChaining,foldl_patchExit]
  · unfold tbCpuState
    rcases finishTrace_desc w entryTb code w.tbFlushVersion tb with hdesc | ⟨-,hdesc⟩ <;> rw [hdesc]

theorem finishTrace_dropped (w : World n) (entryTb : TbId) (code cacheVersion : Nat)
    (h : ¬ (w.llvm.llvmFlush = false ∧ w.tbFlushVersion = cacheVersion)) :
    w.finishTrace entryTb code cacheVersion = w := by
  unfold finishTrace
  rw [if_pos]
  cases hflush : w.llvm.llvmFlush with
  | true => exact .inl rfl
  | false => exact .inr fun hver => h ⟨hflush,hver⟩

theorem updateIbtcEntry_tbJmpCache (w : World n) (c d : Fin n) (tb : TbId) :
    ((w.updateIbtcEntry c tb).cpus d).tbJmpCache = (w.cpus d).tbJmpCache := by
  by_cases hd : d = c
  · subst hd
    cases hpend : (w.cpus d).updateIbtc <;> simp [updateIbtcEntry,updateIbtcTable,hpend]
  · cases hpend : (w.cpus c).updateIbtc <;> simp [updateIbtcEntry,updateIbtcTable,hpend,hd]

theorem updateIbtcEntry_ibtc (w : World n) (c d : Fin n) (tb : TbId) (slot : Nat) :
    ((w.updateIbtcEntry c tb).cpus d).ibtc slot =
      if d = c ∧ (w.cpus c).updateIbtc ∧ slot = (w.cpus c).cachedEip &&& ibtcCacheMask then
        ⟨(w.cpus c).cachedEip,some tb⟩
      else (w.cpus d).ibtc slot := by
  by_cases hd : d = c
  · subst hd
    cases hpend : (w.cpus d).updateIbtc with
    | false => simp [updateIbtcEntry,hpend]
    | true => simp [updateIbtcEntry,updateIbtcTable,hpend,update_apply]
  · cases hpend : (w.cpus c).updateIbtc <;> simp [updateIbtcEntry,updateIbtcTable,hpend,hd]

theorem tbPhysInvalidate_some {pageAddr : Option Nat}
    (h : w.tbPhysInvalidate cfg tb pageAddr = some next) :
    ∃ ptb links, w.links.hash ptb = some tb ∧
      Links.Unchains (w.links.setHash ptb (w.links.hash (.next tb))) links ∧
      next = { w with
        links := links
        tbInvalidatedFlag := true
        cpus := fun c =>
          let h := tbJmpCacheHashFunc cfg (w.desc tb).pc
          if (w.cpus c).tbJmpCache h = some tb then
            { w.cpus c with tbJmpCache := update (w.cpus c).tbJmpCache h none }
          else w.cpus c
        tbPhysInvalidateCount := w.tbPhysInvalidateCount+1 } := by
  simp only [tbPhysInvalidate,bind_eq_bind,bind_eq_some_iff] at h
  obtain ⟨page0,-,removed,hremoved,page0Left,hpage0,page1Left,hpage1,jmp0,hjmp0,
    jmp1,hjmp1,suppressed,hsupply,h⟩ := h
  obtain ⟨ptb,hpage,rfl⟩ := Links.tbRemove_some hremoved
  cases h
  refine ⟨ptb,_,hpage,?_,rfl⟩
  refine (Links.leavePage_unchains hpage0).trans ?_
  refine (Links.leavePage_unchains hpage1).trans ?_
  refine (Links.tbJmpRemove_unchains hjmp0).trans ?_
  refine (Links.tbJmpRemove_unchains hjmp1).trans ?_
  exact (Links.suppressJumps_unchains hsupply).trans (Links.unchains_setJmp _ _ _)

theorem sameGuest_physInvalidate {pageAddr : Option Nat}
    (h : w.tbPhysInvalidate cfg tb pageAddr = some next) : SameGuest w next := by
  obtain ⟨ptb,links,-,-,rfl⟩ := tbPhysInvalidate_some h
  constructor <;> intro c <;> dsimp only <;> split <;> rfl

end World

end Hqemu.Exec
