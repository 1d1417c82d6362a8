import Hqemu.Exec.CpuExec
import Hqemu.Exec.Flush

/-! The entries of the IBTC. A miss leaves its address in the CPU, and the next block started is
entered under it. -/
namespace Hqemu.Exec.Dispatch

open Option World Store Ibtc Flush Lib.Run

variable {cfg : Config} {w next : World 1}

def ZeroEntries (w : World 1) : Prop :=
  ∀ slot, ((w.cpus 0).ibtc slot).tb = none → (w.cpus 0).ibtc slot = ⟨0,none⟩

structure Good (w : World 1) : Prop where
  clean : Clean w
  tables : TablesCurrent w
  zero : ZeroEntries w

def Quiet (w next : World 1) : Prop :=
  ∀ slot eip tb, (next.cpus 0).ibtc slot = ⟨eip,some tb⟩ →
    (w.cpus 0).ibtc slot = ⟨eip,some tb⟩ ∧ next.tbCpuState tb = w.tbCpuState tb

open Machine

theorem Quiet.trans {last : World 1} (h : Quiet w next) (hlast : Quiet next last) :
    Quiet w last := by
  intro slot eip tb hentry
  have hback := hlast slot eip tb hentry
  have hfirst := h slot eip tb hback.1
  exact ⟨hfirst.1,hback.2.trans hfirst.2⟩

def Evolves (w next : World 1) : Prop := Good w → Good next ∧ Quiet w next

theorem Evolves.trans {last : World 1} (h : Evolves w next) (hlast : Evolves next last) :
    Evolves w last := by
  intro hgood
  have hnext := h hgood
  have hafter := hlast hnext.1
  exact ⟨hafter.1,hnext.2.trans hafter.2⟩

theorem Evolves.refl (w : World 1) : Evolves w w :=
  fun hgood => ⟨hgood,fun _ _ _ hentry => ⟨hentry,rfl⟩⟩

theorem others_empty (w : World 1) : OthersEmpty w 0 := by
  intro d hd
  omega

theorem zeroEntries_of_kept (h : ZeroEntries w) (hkeep : Kept w next) : ZeroEntries next := by
  intro slot hnone
  rcases hkeep 0 slot with hsame | hz
  · rw [hsame] at hnone ⊢
    exact h slot hnone
  · exact hz

theorem evolves_of_kept (hclean : Clean w → Clean next)
    (htables : Clean w → TablesCurrent w → TablesCurrent next) (hkeep : Kept w next)
    (hstate : ∀ tb, tb < w.nbTbs → next.tbCpuState tb = w.tbCpuState tb) : Evolves w next := by
  intro hgood
  refine ⟨⟨hclean hgood.clean,htables hgood.clean hgood.tables,
    zeroEntries_of_kept hgood.zero hkeep⟩,fun slot eip tb hentry => ?_⟩
  rcases hkeep 0 slot with hsame | hz
  · rw [hsame] at hentry
    refine ⟨hentry,hstate tb ?_⟩
    exact hgood.clean.index tb (hgood.tables 0 slot tb (by rw [hentry]))
  · rw [hz] at hentry
    cases hentry

theorem evolves_of_same (hclean : Clean w → Clean next) (hsame : SameBlocks w next)
    (hkeep : Kept w next) (hstate : ∀ tb, next.tbCpuState tb = w.tbCpuState tb) : Evolves w next :=
  evolves_of_kept hclean
    (fun _ htables => htables.of_kept hkeep fun tb htb => (hsame.current tb).mpr htb) hkeep
    fun tb _ => hstate tb

theorem evolves_updateCpu (w : World 1) (f : Cpu → Cpu) (hibtc : ∀ cpu, (f cpu).ibtc = cpu.ibtc)
    (hcache : ∀ cpu, (f cpu).tbJmpCache = cpu.tbJmpCache) : Evolves w (w.updateCpu 0 f) := by
  apply evolves_of_same
  · intro hclean
    apply hclean.updateCpu
    intro hash tb htb
    rw [hcache] at htb
    exact hclean.cache 0 hash tb htb
  · exact sameBlocks_updateCpu w 0 f
  · exact kept_updateCpu 0 f hibtc
  · exact fun _ => rfl

theorem evolves_runGuest (w : World 1) (state : TbCpuState) : Evolves w (w.runGuest 0 state) :=
  evolves_updateCpu w _ (fun _ => rfl) fun _ => rfl

theorem evolves_stopPrediction (w : World 1) : Evolves w (w.stopPrediction 0) :=
  evolves_updateCpu w _ (fun _ => rfl) fun _ => rfl

theorem evolves_loopExit (w : World 1) : Evolves w (w.loopExit 0) := by
  unfold loopExit
  split
  · exact evolves_stopPrediction w
  · exact Evolves.refl w

theorem evolves_tbFlush (h : w.tbFlush cfg 0 = some next) : Evolves w next := by
  intro hgood
  have hkeep := kept_tbFlush h
  refine ⟨⟨hgood.clean.tbFlush h,tablesCurrent_tbFlush (others_empty w) h,
    zeroEntries_of_kept hgood.zero hkeep⟩,fun slot eip tb hentry => ?_⟩
  unfold tbFlush at h
  split at h
  · cases h
  · cases h
    simp [optimizationReset,ibtcReset,llvmTbFlush] at hentry

theorem evolves_allocBase {base : World 1} (h : AllocBase cfg w 0 base) : Evolves w base := by
  rcases h with ⟨-,rfl⟩ | ⟨-,hflush⟩
  · exact Evolves.refl _
  · exact evolves_tbFlush hflush

variable {found : Option TbId}

theorem evolves_translated {base : World 1} {state : TbCpuState}
    (h : Translated cfg base state next found) : Evolves base next := by
  apply evolves_of_kept
  · exact fun hclean => hclean.translated h
  · exact fun _ htables => htables.translated h
  · exact kept_translated h
  · intro tb htb
    unfold tbCpuState
    rw [h.desc tb (Nat.ne_of_lt htb)]

theorem evolves_setFlag (w : World 1) (flag : Bool) :
    Evolves w { w with tbInvalidatedFlag := flag } :=
  fun hgood => ⟨⟨hgood.clean.setFlag flag,hgood.tables,hgood.zero⟩,fun _ _ _ hentry => ⟨hentry,rfl⟩⟩

theorem evolves_startProfileIfCold (w : World 1) (tb : TbId) :
    Evolves w (w.startProfileIfCold tb) := by
  apply evolves_of_same
  · exact fun hclean => hclean.startProfileIfCold tb
  · exact sameBlocks_startProfileIfCold w tb
  · exact kept_of_ibtc fun c => by simp
  · exact startProfileIfCold_tbCpuState w tb

theorem quiet_setTbJmpCache (w : World 1) (pc : Nat) (tb : TbId) :
    Quiet w (w.setTbJmpCache cfg 0 pc tb) := by
  intro slot eip x hentry
  exact ⟨hentry,rfl⟩

theorem evolves_findFast (h : FindFast cfg w 0 next found) : Evolves w next := by
  intro hgood
  have hclean := (hgood.clean.findFast h).1
  have htables := hgood.tables.findFast (fun _ => others_empty w) h
  have hz := zeroEntries_of_kept hgood.zero (kept_composes.findFast h)
  refine ⟨⟨hclean,htables,hz⟩,?_⟩
  cases h with
  | cached tb hhit => exact (evolves_startProfileIfCold w tb hgood).2
  | hashed tb hfound =>
    have hprof := (evolves_setFlag w false).trans (evolves_startProfileIfCold _ tb)
    exact (hprof hgood).2.trans (quiet_setTbJmpCache _ _ tb)
  | translated base mid tb hmiss hbase hmid =>
    have hstart := (evolves_setFlag w false).trans (evolves_allocBase hbase)
    have hgen := hstart.trans (evolves_translated hmid)
    exact (hgen hgood).2.trans (quiet_setTbJmpCache _ _ tb)
  | faulted base mid hmiss hbase hmid =>
    have hstart := (evolves_setFlag w false).trans (evolves_allocBase hbase)
    exact (hstart.trans (evolves_translated hmid) hgood).2

variable {nextTb : NextTb} {tb : TbId}

theorem chainNext_tbCpuState (h : w.chainNext nextTb tb = some next) (x : TbId) :
    next.tbCpuState x = w.tbCpuState x := by
  unfold tbCpuState
  rcases (chainNext_some h).2.2.2.2.2 with hdesc | hdesc
  · rw [hdesc]
  · rw [hdesc]
    exact startProfileIfCold_tbCpuState w tb x

theorem evolves_chainNext (h : w.chainNext nextTb tb = some next) : Evolves w next := by
  apply evolves_of_same
  · exact fun hclean => hclean.chainNext h
  · exact sameBlocks_chainNext h
  · exact kept_chainNext h
  · exact chainNext_tbCpuState h

theorem evolves_lookupIbtc (w : World 1) (eip : Nat) :
    Evolves w (w.helperLookupIbtc cfg 0 eip).1 := by
  rcases helperLookupIbtc_world cfg w 0 eip with hsame | hmiss
  · rw [hsame]
    exact Evolves.refl w
  · rw [hmiss]
    exact evolves_updateCpu w _ (fun _ => rfl) fun _ => rfl

theorem evolves_physInvalidate {pageAddr : Option Nat}
    (h : w.tbPhysInvalidate cfg tb pageAddr = some next) : Evolves w next := by
  have hclean : Clean w → Clean next := fun hclean => hclean.physInvalidate h
  have hs : w.step cfg (.physInvalidate tb pageAddr) = some next := h
  have hkeep : Kept w next := kept_step (by simp) hs
  obtain ⟨ptb,links,-,-,rfl⟩ := tbPhysInvalidate_some h
  exact evolves_of_kept hclean (fun _ htables => htables.of_kept hkeep fun _ hx => hx) hkeep
    fun _ _ => rfl

theorem evolves_genCode {state : TbCpuState} {cflags : Nat} {gen : Option GenCode}
    (h : w.tbGenCode cfg 0 state cflags gen = some (next,found)) : Evolves w next := by
  obtain ⟨base,hbase,hnext⟩ := tbGenCode_some h
  exact (evolves_allocBase hbase).trans (evolves_translated hnext)

theorem evolves_emitExit (w : World 1) (addr : Nat) (state : TbCpuState) :
    Evolves w (w.emitExit addr state) := by
  apply evolves_of_same
  · exact fun hclean => hclean.emitExit addr state
  · exact sameBlocks_emitExit w addr state
  · exact kept_of_ibtc fun _ => rfl
  · exact fun _ => rfl

theorem evolves_requestFlush (w : World 1) : Evolves w w.requestFlush :=
  evolves_of_same (fun hclean => hclean.of_sameBlocks (sameBlocks_requestFlush w) hclean.cache)
    (sameBlocks_requestFlush w) (kept_of_ibtc fun _ => rfl) fun _ => rfl

theorem finishTrace_tbCpuState (w : World 1) (entryTb : TbId) (code cacheVersion : Nat)
    (tb : TbId) : (w.finishTrace entryTb code cacheVersion).tbCpuState tb = w.tbCpuState tb := by
  unfold tbCpuState
  rcases finishTrace_desc w entryTb code cacheVersion tb with hdesc | ⟨-,hdesc⟩ <;> rw [hdesc]

theorem evolves_finishTrace (w : World 1) (entryTb : TbId) (code cacheVersion : Nat) :
    Evolves w (w.finishTrace entryTb code cacheVersion) := by
  apply evolves_of_same
  · exact fun hclean => hclean.finishTrace entryTb code cacheVersion
  · exact sameBlocks_finishTrace w entryTb code cacheVersion
  · exact kept_finishTrace entryTb code cacheVersion
  · exact finishTrace_tbCpuState w entryTb code cacheVersion

theorem evolves_updateDesc (w : World 1) (tb : TbId) (f : TbDesc → TbDesc)
    (h : ∀ desc, (f desc).pc = desc.pc ∧ (f desc).csBase = desc.csBase ∧
      (f desc).flags = desc.flags ∧ (f desc).version = desc.version ∧
      (f desc).optVersion = desc.optVersion) : Evolves w (w.updateDesc tb f) := by
  have hdesc : ∀ x, (w.updateDesc tb f).desc x = if x = tb then f (w.desc x) else w.desc x := by
    intro x
    by_cases hx : x = tb <;> simp [hx]
  have hsame : SameBlocks w (w.updateDesc tb f) := by
    refine ⟨rfl,rfl,fun x => ?_,fun x => .inl ?_,rfl⟩ <;> rw [hdesc] <;> split <;> simp [h]
  apply evolves_of_same
  · exact fun hclean => hclean.of_sameBlocks hsame hclean.cache
  · exact hsame
  · exact kept_of_ibtc fun _ => rfl
  · intro x
    unfold tbCpuState
    rw [hdesc]
    split <;> simp [h]

theorem evolves_helperTraceProfile (w : World 1) (tb : TbId) :
    Evolves w (w.helperTraceProfile 0 tb) := by
  unfold helperTraceProfile
  have hcount : Evolves w (w.updateDesc tb fun desc =>
      { desc with execCount := desc.execCount+1 }) :=
    evolves_updateDesc w tb _ fun _ => ⟨rfl,rfl,rfl,rfl,rfl⟩
  dsimp only
  split
  · refine (hcount.trans ?_).trans (evolves_updateCpu _ _ (fun _ => rfl) fun _ => rfl)
    exact evolves_updateDesc _ tb _ fun _ => ⟨rfl,rfl,rfl,rfl,rfl⟩
  · exact hcount

theorem evolves_predictStub (w : World 1) (tb : TbId) : Evolves w (w.predictStub 0 tb).1 := by
  unfold predictStub
  split
  · unfold helperTracePredict
    dsimp only
    split
    · exact evolves_stopPrediction w
    split
    · exact evolves_stopPrediction w
    · dsimp only
      exact evolves_updateCpu w _ (fun _ => rfl) fun _ => rfl
  · exact Evolves.refl w

theorem evolves_enterTb (w : World 1) (tb : TbId) :
    Evolves w (enterTb w tb).1.world ∧
      ((enterTb w tb).1.phase = .block tb ∨ (enterTb w tb).1.phase = .region tb) := by
  unfold enterTb
  split
  · exact ⟨Evolves.refl w,.inr rfl⟩
  · exact ⟨(evolves_helperTraceProfile w tb).trans (evolves_predictStub _ tb),.inl rfl⟩
  · exact ⟨evolves_predictStub w tb,.inl rfl⟩

theorem evolves_enterOpt (w : World 1) (tb : TbId) :
    Evolves w (enterOpt w tb).1.world ∧
      ((enterOpt w tb).1.phase = .block tb ∨ (enterOpt w tb).1.phase = .region tb) := by
  unfold enterOpt
  split
  · exact ⟨Evolves.refl w,.inr rfl⟩
  · exact evolves_enterTb w tb

structure Sound (m : Machine) : Prop where
  good : Good m.world
  found : ∀ tb, m.phase = .found tb →
    Current m.world tb ∧ m.world.tbCpuState tb = (m.world.cpus 0).state

/-- Every filled entry is for a block at the guest address its `eip` denotes, and
no lookup has read a null block. -/
def EntriesDenote (cfg : Config) (m : Machine) : Prop :=
  m.phase ≠ .crashed ∧ ∀ slot eip tb, (m.world.cpus 0).ibtc slot = ⟨eip,some tb⟩ →
    (m.world.desc tb).pc = pcOfEip cfg eip (m.world.desc tb).csBase

/-- An update is pending only as long as the guest is where the lookup left it, and
address 0 is looked up only when its entry is filled. -/
def StaysAtMiss (cfg : Config) (m : Machine) : Action → Prop
  | .start => (m.world.cpus 0).updateIbtc = true →
      (m.world.cpus 0).state.pc =
        pcOfEip cfg (m.world.cpus 0).cachedEip (m.world.cpus 0).state.csBase
  | .indirect eip _ _ => eip = 0 → ((m.world.cpus 0).ibtc 0).tb ≠ none
  | _ => True

structure Ordinary (m after : Machine) : Prop where
  evolves : Evolves m.world after.world
  phase : after.phase ≠ .crashed ∨ after.phase = m.phase
  found : ∀ tb, after.phase = .found tb → Current after.world tb ∧
    after.world.tbCpuState tb = (after.world.cpus 0).state

variable {m after : Machine}

theorem Ordinary.sound (h : Ordinary m after) (hsound : Sound m) : Sound after :=
  ⟨(h.evolves hsound.good).1,h.found⟩

theorem ordinary_of_phase (hsound : Sound m) (hevolves : Evolves m.world next)
    (hsame : SameBlocks m.world next) (hcpus : (next.cpus 0).state = (m.world.cpus 0).state)
    (hstate : ∀ tb, next.tbCpuState tb = m.world.tbCpuState tb) :
    Ordinary m ⟨next,m.phase⟩ where
  evolves := hevolves
  phase := Or.inr rfl
  found tb htb := by
    have hfound := hsound.found tb htb
    rw [hsame.current,hstate,hcpus]
    exact hfound

theorem ordinary_of_not_found {phase : Phase} (hevolves : Evolves m.world next)
    (hcrashed : phase ≠ .crashed) (hfound : ∀ tb, phase ≠ .found tb) : Ordinary m ⟨next,phase⟩ :=
  ⟨hevolves,.inl hcrashed,fun tb htb => absurd htb (hfound tb)⟩

theorem ordinary_entered (hevolves : Evolves m.world after.world)
    (hphase : after.phase = .block tb ∨ after.phase = .region tb) : Ordinary m after := by
  refine ⟨hevolves,.inl ?_,fun x hx => ?_⟩
  · rcases hphase with hphase | hphase <;> simp [hphase]
  · rcases hphase with hphase | hphase <;> simp [hphase] at hx

theorem ordinary_findNext {gen : Option GenCode} (hsound : Sound m)
    (h : findNext cfg m.world nextTb gen = some after) : Ordinary m after := by
  simp only [findNext,bind_eq_bind,bind_eq_some_iff,Prod.exists] at h
  obtain ⟨mid,found,hfind,h⟩ := h
  have hmid : Evolves m.world mid := evolves_findFast (tbFindFast_some hfind)
  cases found with
  | none =>
    cases h
    exact ordinary_of_not_found (hmid.trans (evolves_loopExit mid)) (by simp) (by simp)
  | some tb =>
    simp only [bind_eq_some_iff] at h
    obtain ⟨chained,hchain,h⟩ := h
    cases h
    refine ⟨hmid.trans (evolves_chainNext hchain),.inl (by simp),fun x hx => ?_⟩
    cases hx
    have hcur := (hsound.good.clean.findFast (tbFindFast_some hfind)).2 tb rfl
    have hsame := sameBlocks_chainNext hchain
    refine ⟨(hsame.current tb).mpr hcur,?_⟩
    calc chained.tbCpuState tb = mid.tbCpuState tb := chainNext_tbCpuState hchain tb
      _ = (m.world.cpus 0).state := tbFindFast_tbCpuState hfind
      _ = (mid.cpus 0).state := ((sameGuest_composes.findFast (tbFindFast_some hfind)).state 0).symm
      _ = (chained.cpus 0).state := by rw [(chainNext_some hchain).1]

variable {action : Action}

theorem ordinary_step {calls : List TraceCall} (hsound : Sound m) (hstart : action ≠ .start)
    (hindirect : ∀ eip csBase flags, action ≠ .indirect eip csBase flags)
    (h : m.stepCalls cfg action = some (after,calls)) : Ordinary m after := by
  cases action with
  | cpuExec =>
    simp only [stepCalls] at h
    split at h
    · cases h
      exact ordinary_of_not_found (Evolves.refl _) (by simp) (by simp)
    · cases h
  | deliver state | interrupt state | exitTb state =>
    simp only [stepCalls] at h
    split at h
    · cases h
      exact ordinary_of_not_found (evolves_runGuest _ state) (by simp) (by simp)
    · cases h
  | exitRequest | skip =>
    simp only [stepCalls] at h
    split at h
    · cases h
      exact ordinary_of_not_found (evolves_loopExit _) (by simp) (by simp)
    · cases h
  | find gen =>
    simp only [stepCalls] at h
    split at h
    · simp only [map_eq_some_iff,Prod.mk.injEq] at h
      obtain ⟨found,hfind,rfl,-⟩ := h
      exact ordinary_findNext hsound hfind
    · cases h
  | start => exact absurd rfl hstart
  | direct n state =>
    simp only [stepCalls] at h
    split at h
    · split at h
      · split at h
        · rename_i target htarget
          have henter := evolves_enterTb (m.world.runGuest 0 state) target
          rw [some.inj h] at henter
          exact ordinary_entered ((evolves_runGuest _ state).trans henter.1) henter.2
        · cases h
          exact ordinary_of_not_found (evolves_runGuest _ state) (by simp) (by simp)
      · cases h
    · cases h
  | indirect eip csBase flags => exact absurd rfl (hindirect eip csBase flags)
  | regionExit addr =>
    simp only [stepCalls] at h
    split at h
    · rename_i exit hphase hexit
      split at h
      · rename_i target htarget
        have henter := evolves_enterOpt (m.world.runGuest 0 exit.state) target
        rw [some.inj h] at henter
        exact ordinary_entered ((evolves_runGuest _ exit.state).trans henter.1) henter.2
      · cases h
        exact ordinary_of_not_found (evolves_runGuest _ exit.state) (by simp) (by simp)
    · cases h
  | exception state =>
    simp only [stepCalls] at h
    split at h
    · cases h
      exact ordinary_of_not_found
        ((evolves_runGuest _ state).trans (evolves_loopExit _)) (by simp) (by simp)
    · cases h
  | invalidate tb pageAddr =>
    simp only [stepCalls,map_eq_some_iff,Prod.mk.injEq] at h
    obtain ⟨next,hnext,rfl,-⟩ := h
    have hevolves := evolves_physInvalidate hnext
    obtain ⟨ptb,links,-,-,rfl⟩ := tbPhysInvalidate_some hnext
    refine ⟨hevolves,.inr rfl,fun x hx => ?_⟩
    have hfound := hsound.found x hx
    refine ⟨hfound.1,hfound.2.trans ?_⟩
    dsimp only
    split <;> rfl
  | regenerate state gen =>
    simp only [stepCalls] at h
    split at h
    · simp only [map_eq_some_iff,Prod.mk.injEq,Prod.exists] at h
      obtain ⟨next,found,hnext,rfl,-⟩ := h
      exact ordinary_of_not_found
        ((evolves_genCode hnext).trans (evolves_loopExit next)) (by simp) (by simp)
    · cases h
  | flush =>
    simp only [stepCalls] at h
    split at h
    · rename_i hphase
      simp only [map_eq_some_iff,Prod.mk.injEq] at h
      obtain ⟨next,hnext,rfl,-⟩ := h
      refine ⟨evolves_tbFlush hnext,.inr rfl,fun tb htb => ?_⟩
      change m.phase = .found tb at htb
      simp [htb,inCode] at hphase
    · cases h
  | requestFlush =>
    cases h
    exact ordinary_of_phase hsound (evolves_requestFlush _) (sameBlocks_requestFlush _) rfl
      fun _ => rfl
  | emitExit addr state =>
    simp only [stepCalls,World.step,map_eq_some_iff,Prod.mk.injEq] at h
    obtain ⟨next,hnext,rfl,-⟩ := h
    split at hnext
    · cases hnext
      exact ordinary_of_phase hsound (evolves_emitExit _ addr state)
        (sameBlocks_emitExit _ addr state) rfl fun _ => rfl
    · cases hnext
  | finishTrace entryTb code cacheVersion =>
    obtain ⟨rfl,-⟩ := h
    apply ordinary_of_phase hsound (evolves_finishTrace _ entryTb code cacheVersion)
      (sameBlocks_finishTrace _ entryTb code cacheVersion)
    · rw [(finishTrace_same ..).1]
    · exact finishTrace_tbCpuState m.world entryTb code cacheVersion

theorem EntriesDenote.of_quiet (h : EntriesDenote cfg m) (hphase : after.phase ≠ .crashed)
    (hqueue : Quiet m.world after.world) : EntriesDenote cfg after := by
  refine ⟨hphase,fun slot eip tb hentry => ?_⟩
  have hback := hqueue slot eip tb hentry
  have hdenote := h.2 slot eip tb hback.1
  have hpc : (after.world.desc tb).pc = (m.world.desc tb).pc := congrArg TbCpuState.pc hback.2
  have hcs : (after.world.desc tb).csBase = (m.world.desc tb).csBase :=
    congrArg TbCpuState.csBase hback.2
  rw [hpc,hcs]
  exact hdenote

theorem predictStub_entries (w : World 1) (tb : TbId) :
    ((w.predictStub 0 tb).1.cpus 0).ibtc = (w.cpus 0).ibtc ∧
      ∀ x, (w.predictStub 0 tb).1.tbCpuState x = w.tbCpuState x := by
  unfold predictStub
  split
  · unfold helperTracePredict
    dsimp only
    split
    · exact ⟨by simp [stopPrediction],fun _ => rfl⟩
    split
    · exact ⟨by simp [stopPrediction],fun _ => rfl⟩
    · exact ⟨by simp,fun _ => rfl⟩
  · exact ⟨rfl,fun _ => rfl⟩

theorem helperTraceProfile_entries (w : World 1) (tb : TbId) :
    ((w.helperTraceProfile 0 tb).cpus 0).ibtc = (w.cpus 0).ibtc ∧
      ∀ x, (w.helperTraceProfile 0 tb).tbCpuState x = w.tbCpuState x := by
  unfold helperTraceProfile
  dsimp only
  split
  all_goals
    refine ⟨by simp,fun x => ?_⟩
    by_cases hx : x = tb
    · subst hx
      simp [tbCpuState]
    · simp [tbCpuState,hx]

theorem enterOpt_entries (w : World 1) (tb : TbId) :
    ((enterOpt w tb).1.world.cpus 0).ibtc = (w.cpus 0).ibtc ∧
      ∀ x, (enterOpt w tb).1.world.tbCpuState x = w.tbCpuState x := by
  unfold enterOpt
  split
  · exact ⟨rfl,fun _ => rfl⟩
  unfold enterTb
  split
  · exact ⟨rfl,fun _ => rfl⟩
  · have hprof := helperTraceProfile_entries w tb
    have hpred := predictStub_entries (w.helperTraceProfile 0 tb) tb
    exact ⟨hpred.1.trans hprof.1,fun x => (hpred.2 x).trans (hprof.2 x)⟩
  · exact predictStub_entries w tb

theorem updateIbtcEntry_tbCpuState (w : World 1) (tb x : TbId) :
    (w.updateIbtcEntry 0 tb).tbCpuState x = w.tbCpuState x := by
  unfold updateIbtcEntry
  rw [startProfileIfCold_tbCpuState]
  split <;> rfl

theorem startTb_ibtc (w : World 1) (tb : TbId) (slot : Nat) :
    ((startTb w tb).1.world.cpus 0).ibtc slot =
      if (w.cpus 0).updateIbtc ∧ slot = (w.cpus 0).cachedEip &&& ibtcCacheMask then
        ⟨(w.cpus 0).cachedEip,some tb⟩
      else (w.cpus 0).ibtc slot := by
  unfold startTb
  rw [(enterOpt_entries _ tb).1]
  cases hpend : (w.cpus 0).updateIbtc with
  | false => simp
  | true => simp [updateIbtcEntry_ibtc,hpend]

theorem startTb_tbCpuState (w : World 1) (tb x : TbId) :
    (startTb w tb).1.world.tbCpuState x = w.tbCpuState x := by
  unfold startTb
  rw [(enterOpt_entries _ tb).2]
  split
  · exact updateIbtcEntry_tbCpuState w tb x
  · rfl

theorem Good.updateIbtcEntry (hgood : Good w) (htb : Current w tb) :
    Good (w.updateIbtcEntry 0 tb) := by
  refine ⟨hgood.clean.updateIbtcEntry 0 tb,hgood.tables.updateIbtcEntry 0 fun _ => htb,?_⟩
  intro slot hnone
  rw [updateIbtcEntry_ibtc] at hnone ⊢
  split
  · rename_i hput
    rw [if_pos hput] at hnone
    cases hnone
  · rename_i hput
    rw [if_neg hput] at hnone
    exact hgood.zero slot hnone

theorem sound_startTb (hsound : Sound m) (hphase : m.phase = .found tb) :
    Sound (startTb m.world tb).1 := by
  have hcur := (hsound.found tb hphase).1
  have hput : Good (if (m.world.cpus 0).updateIbtc then m.world.updateIbtcEntry 0 tb
      else m.world) := by
    split
    · exact hsound.good.updateIbtcEntry hcur
    · exact hsound.good
  have henter := evolves_enterOpt
    (if (m.world.cpus 0).updateIbtc then m.world.updateIbtcEntry 0 tb else m.world) tb
  refine ⟨(henter.1 hput).1,fun x hx => ?_⟩
  change (enterOpt _ tb).1.phase = .found x at hx
  rcases henter.2 with hblock | hreg
  · rw [hblock] at hx
    cases hx
  · rw [hreg] at hx
    cases hx

theorem startTb_phase (w : World 1) (tb : TbId) : (startTb w tb).1.phase ≠ .crashed := by
  have henter := evolves_enterOpt (if (w.cpus 0).updateIbtc then w.updateIbtcEntry 0 tb else w) tb
  change (enterOpt _ tb).1.phase ≠ .crashed
  rcases henter.2 with hblock | hreg
  · simp [hblock]
  · simp [hreg]

theorem entriesDenote_startTb (hsound : Sound m) (hphase : m.phase = .found tb)
    (h : EntriesDenote cfg m) :
    EntriesDenote cfg (startTb m.world tb).1 ↔ StaysAtMiss cfg m .start := by
  have hstate := (hsound.found tb hphase).2
  have hpc : ∀ x, ((startTb m.world tb).1.world.desc x).pc = (m.world.desc x).pc :=
    fun x => congrArg TbCpuState.pc (startTb_tbCpuState m.world tb x)
  have hcs : ∀ x, ((startTb m.world tb).1.world.desc x).csBase = (m.world.desc x).csBase :=
    fun x => congrArg TbCpuState.csBase (startTb_tbCpuState m.world tb x)
  have htbPc : (m.world.desc tb).pc = (m.world.cpus 0).state.pc := congrArg TbCpuState.pc hstate
  have htbCs : (m.world.desc tb).csBase = (m.world.cpus 0).state.csBase :=
    congrArg TbCpuState.csBase hstate
  constructor
  · intro hafter hpend
    have hput := hafter.2 ((m.world.cpus 0).cachedEip &&& ibtcCacheMask)
      (m.world.cpus 0).cachedEip tb (by rw [startTb_ibtc,if_pos ⟨hpend,rfl⟩])
    rw [hpc,hcs,htbPc,htbCs] at hput
    exact hput
  · intro hcond
    refine ⟨startTb_phase m.world tb,fun slot eip x hentry => ?_⟩
    rw [startTb_ibtc] at hentry
    rw [hpc,hcs]
    split at hentry
    · rename_i hput
      cases hentry
      rw [htbPc,htbCs]
      exact hcond hput.1
    · exact h.2 slot eip x hentry

theorem nullTb_iff (hz : ZeroEntries w) (eip : Nat) :
    (w.helperLookupIbtc cfg 0 eip).2 = .nullTb ↔ eip = 0 ∧ ((w.cpus 0).ibtc 0).tb = none := by
  rw [helperLookupIbtc_nullTb]
  constructor
  · intro hentry
    have hcleared := hz (eip &&& ibtcCacheMask) (by rw [hentry])
    rw [hentry] at hcleared
    have heip : eip = 0 := congrArg JmpPair.eip hcleared
    subst heip
    rw [Nat.zero_and] at hentry
    exact ⟨rfl,by rw [hentry]⟩
  · rintro ⟨rfl,hnone⟩
    rw [Nat.zero_and]
    exact hz 0 hnone

theorem jumpIbtc_cases (w : World 1) (target : IbtcTarget) :
    Evolves w (jumpIbtc w target).1.world ∧
      (∀ tb, (jumpIbtc w target).1.phase ≠ .found tb) ∧
      ((jumpIbtc w target).1.phase = .crashed ↔ target = .nullTb) := by
  cases target with
  | optPtr tb ptr =>
    have henter := evolves_enterOpt w tb
    refine ⟨henter.1,fun x => ?_,?_⟩
    · change (enterOpt w tb).1.phase ≠ .found x
      rcases henter.2 with hblock | hreg
      · simp [hblock]
      · simp [hreg]
    · change (enterOpt w tb).1.phase = .crashed ↔ _
      rcases henter.2 with hblock | hreg
      · simp [hblock]
      · simp [hreg]
  | ibtcRetAddr | nullTb =>
    exact ⟨Evolves.refl w,by simp [jumpIbtc],by simp [jumpIbtc]⟩

theorem branchIndirect_cases (cfg : Config) (w : World 1) (eip csBase flags : Nat) :
    Evolves w (branchIndirect cfg w eip csBase flags).1.world ∧
      (∀ tb, (branchIndirect cfg w eip csBase flags).1.phase ≠ .found tb) ∧
      (ZeroEntries w → ((branchIndirect cfg w eip csBase flags).1.phase = .crashed ↔
        eip = 0 ∧ ((w.cpus 0).ibtc 0).tb = none)) := by
  let guest := w.runGuest 0 ⟨pcOfEip cfg eip csBase,csBase,flags⟩
  have hlook : Evolves w (guest.helperLookupIbtc cfg 0 eip).1 :=
    (evolves_runGuest w _).trans (evolves_lookupIbtc guest eip)
  have hjump := jumpIbtc_cases (guest.helperLookupIbtc cfg 0 eip).1
    (guest.helperLookupIbtc cfg 0 eip).2
  refine ⟨hlook.trans hjump.1,hjump.2.1,fun hz => ?_⟩
  have hibtc : (guest.cpus 0).ibtc = (w.cpus 0).ibtc := by simp [guest,runGuest]
  have hzeroGuest : ZeroEntries guest := by
    intro slot
    rw [hibtc]
    exact hz slot
  rw [← hibtc,← nullTb_iff hzeroGuest]
  exact hjump.2.2

theorem Machine.step_some (h : m.step cfg action = some after) :
    ∃ calls, m.stepCalls cfg action = some (after,calls) :=
  exists_of_map_fst h

theorem step_entriesDenote (hsound : Sound m) (h : m.step cfg action = some after) :
    Sound after ∧ (EntriesDenote cfg m → (EntriesDenote cfg after ↔ StaysAtMiss cfg m action)) := by
  obtain ⟨calls,hclass⟩ := Machine.step_some h
  by_cases hstart : action = .start
  · subst hstart
    simp only [stepCalls] at hclass
    split at hclass
    · rename_i tb hphase
      have hafter : after = (startTb m.world tb).1 := by
        rw [some.inj hclass]
      rw [hafter]
      exact ⟨sound_startTb hsound hphase,entriesDenote_startTb hsound hphase⟩
    · cases hclass
  by_cases hindirect : ∃ eip csBase flags, action = .indirect eip csBase flags
  · obtain ⟨eip,csBase,flags,rfl⟩ := hindirect
    simp only [stepCalls] at hclass
    split at hclass
    · have hafter : after = (branchIndirect cfg m.world eip csBase flags).1 := by
        rw [some.inj hclass]
      have hbranch := branchIndirect_cases cfg m.world eip csBase flags
      rw [← hafter] at hbranch
      have hgood := hbranch.1 hsound.good
      refine ⟨⟨hgood.1,fun tb htb => absurd htb (hbranch.2.1 tb)⟩,fun hdenote => ?_⟩
      have hcrashed := hbranch.2.2 hsound.good.zero
      constructor
      · intro hnext heip hnone
        exact hnext.1 (hcrashed.mpr ⟨heip,hnone⟩)
      · intro hcond
        apply hdenote.of_quiet _ hgood.2
        intro hphase
        exact hcond (hcrashed.mp hphase).1 (hcrashed.mp hphase).2
    · cases hclass
  have hordinary := ordinary_step hsound hstart
    (fun eip csBase flags heq => hindirect ⟨eip,csBase,flags,heq⟩) hclass
  refine ⟨hordinary.sound hsound,fun hdenote => ?_⟩
  have hcond : StaysAtMiss cfg m action := by
    cases action with
    | start => exact absurd rfl hstart
    | indirect eip csBase flags => exact absurd ⟨eip,csBase,flags,rfl⟩ hindirect
    | _ => trivial
  refine iff_of_true (hdenote.of_quiet ?_ (hordinary.evolves hsound.good).2) hcond
  rcases hordinary.phase with hphase | hphase
  · exact hphase
  · rw [hphase]
    exact hdenote.1

theorem sound_initial : Sound Machine.initial := ⟨⟨clean_emptyWorld 1,nofun,fun _ _ => rfl⟩,nofun⟩

/-- The entries are right exactly when no pending update outlives the guest state it was left for
and address 0 is looked up only with its entry filled. -/
theorem entries_denote_iff_stays_at_miss (cfg : Config) (actions : List Action) :
    Always (Machine.step cfg) (EntriesDenote cfg) Machine.initial actions ↔
      Meets (Machine.step cfg) (StaysAtMiss cfg) Machine.initial actions := by
  refine always_iff_meets Sound ?_ ?_ ?_ sound_initial ?_
  · intro m action after hsound hs
    exact (step_entriesDenote hsound hs).1
  · intro m action after hsound hdenote hcond hs
    exact ((step_entriesDenote hsound hs).2 hdenote).mpr hcond
  · intro m action after hsound hdenote hafter hs
    exact ((step_entriesDenote hsound hs).2 hdenote).mp hafter
  · refine ⟨nofun,fun slot eip tb hentry => ?_⟩
    cases hentry

/-- A signal comes between a miss and the next block. And a branch to address 0 finds the zeroed
entry. -/
theorem handler_under_old_eip_and_null_hit :
    (∃ m, run (Machine.step smallConfig) Machine.initial
        [.deliver ⟨0x1000, 0, 0⟩, .cpuExec, .find (some smallBlock), .start,
          .indirect 0x2000 0 0, .exitRequest, .deliver ⟨0x3000, 0, 0⟩, .cpuExec,
          .find (some smallBlock), .start] = some m ∧
      ¬ EntriesDenote smallConfig m) ∧
    ∃ m, run (Machine.step smallConfig) Machine.initial
        [.deliver ⟨0x1000, 0, 0⟩, .cpuExec, .find (some smallBlock), .start,
          .indirect 0 0 0] = some m ∧
      m.phase = .crashed := by
  refine ⟨⟨_,rfl,fun h => ?_⟩,⟨_,rfl,rfl⟩⟩
  have hentry := h.2 0x2000 0x2000 1 rfl
  have hpc : (0x3000 : Nat) = 0x2000 := hentry
  cases hpc

end Hqemu.Exec.Dispatch
