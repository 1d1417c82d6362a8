import Hqemu.Exec.Dispatch

/-! Trace prediction across flushes, which do not drop the blocks collected in the CPU. -/
namespace Hqemu.Exec.Prediction

open List Option World Store Flush Dispatch Lib.Run

variable {cfg : Config} {w next : World 1}

structure Linked (w : World 1) : Prop where
  chain : ∀ tb n target, Current w tb → ((w.desc tb).nextOffset n).isSome →
    w.links.jmpTarget (tb,n) = .block target → Current w target
  exits : ∀ addr exit target, w.llvm.exits addr = some exit → exit.target = some target →
    Current w target

structure Tame (w next : World 1) : Prop where
  tbFlushVersion : next.tbFlushVersion = w.tbFlushVersion
  version : ∀ tb, (next.desc tb).version = (w.desc tb).version
  nextOffset : ∀ tb, (next.desc tb).nextOffset = (w.desc tb).nextOffset
  jmpTarget : ∀ x target, next.links.jmpTarget x = .block target →
    w.links.jmpTarget x = .block target
  exits : ∀ addr exit target, next.llvm.exits addr = some exit → exit.target = some target →
    w.llvm.exits addr = some exit

open Machine

theorem Tame.current (h : Tame w next) (tb : TbId) : Current next tb ↔ Current w tb := by
  unfold Current
  rw [h.version,h.tbFlushVersion]

theorem Linked.of_tame (hlink : Linked w) (h : Tame w next) : Linked next where
  chain tb n target htb hoff htarget := by
    rw [h.current] at htb ⊢
    rw [h.nextOffset] at hoff
    exact hlink.chain tb n target htb hoff (h.jmpTarget _ target htarget)
  exits addr exit target hexit htarget := by
    rw [h.current]
    exact hlink.exits addr exit target (h.exits addr exit target hexit htarget) htarget

def Ages (w next : World 1) : Prop :=
  next.tbFlushVersion = w.tbFlushVersion ∧ (∀ tb, Current w tb → Current next tb) ∨
    w.tbFlushVersion < next.tbFlushVersion

variable {last : World 1}

theorem Ages.trans (h : Ages w next) (hlast : Ages next last) : Ages w last := by
  rcases h with ⟨hver,hcur⟩ | hlt
  · rcases hlast with ⟨hversion',hcurrent'⟩ | hlt'
    · exact .inl ⟨hversion'.trans hver,fun tb htb => hcurrent' tb (hcur tb htb)⟩
    · exact .inr (hver ▸ hlt')
  · rcases hlast with ⟨hversion',-⟩ | hlt'
    · exact .inr (hversion'.symm ▸ hlt)
    · exact .inr (Nat.lt_trans hlt hlt')

theorem Tame.ages (h : Tame w next) : Ages w next :=
  Or.inl ⟨h.tbFlushVersion,fun tb htb => (h.current tb).mpr htb⟩

def Advances (w next : World 1) : Prop :=
  Clean w → Linked w → Linked next ∧ Ages w next

theorem Tame.advances (h : Tame w next) : Advances w next := fun _ hlink => ⟨hlink.of_tame h,h.ages⟩

theorem tame_refl (w : World 1) : Tame w w :=
  ⟨rfl,fun _ => rfl,fun _ => rfl,fun _ _ h => h,fun _ _ _ h _ => h⟩

theorem Tame.trans (h : Tame w next) (hlast : Tame next last) :
    Tame w last where
  tbFlushVersion := hlast.tbFlushVersion.trans h.tbFlushVersion
  version tb := (hlast.version tb).trans (h.version tb)
  nextOffset tb := (hlast.nextOffset tb).trans (h.nextOffset tb)
  jmpTarget x target htarget := h.jmpTarget x target (hlast.jmpTarget x target htarget)
  exits addr exit target hexit htarget :=
    h.exits addr exit target (hlast.exits addr exit target hexit htarget) htarget

theorem tame_updateCpu (w : World 1) (f : Cpu → Cpu) : Tame w (w.updateCpu 0 f) :=
  ⟨rfl,fun _ => rfl,fun _ => rfl,fun _ _ h => h,fun _ _ _ h _ => h⟩

theorem tame_setFlag (w : World 1) (flag : Bool) : Tame w { w with tbInvalidatedFlag := flag } :=
  ⟨rfl,fun _ => rfl,fun _ => rfl,fun _ _ h => h,fun _ _ _ h _ => h⟩

theorem tame_startProfileIfCold (w : World 1) (tb : TbId) : Tame w (w.startProfileIfCold tb) := by
  refine ⟨by simp,fun x => ?_,fun x => ?_,fun x target h => by simpa using h,
    fun addr exit target h _ => by simpa using h⟩
  all_goals
    rcases startProfileIfCold_desc w tb x with ⟨mode,entry,hdesc⟩
    rw [hdesc]

theorem tame_updateIbtcEntry (w : World 1) (tb : TbId) : Tame w (w.updateIbtcEntry 0 tb) := by
  refine Tame.trans ?_ (tame_startProfileIfCold _ tb)
  refine Tame.trans ?_ (tame_updateCpu _ _)
  split
  · exact tame_updateCpu w _
  · exact tame_refl w

theorem tame_lookupIbtc (w : World 1) (eip : Nat) : Tame w (w.helperLookupIbtc cfg 0 eip).1 := by
  rcases helperLookupIbtc_world cfg w 0 eip with hsame | hmiss
  · rw [hsame]
    exact tame_refl w
  · rw [hmiss]
    exact tame_updateCpu w _

variable {tb : TbId}

theorem tame_physInvalidate {pageAddr : Option Nat}
    (h : w.tbPhysInvalidate cfg tb pageAddr = some next) : Tame w next := by
  obtain ⟨ptb,links,-,hunchains,rfl⟩ := tbPhysInvalidate_some h
  refine ⟨rfl,fun _ => rfl,fun _ => rfl,fun x target htarget => ?_,fun _ _ _ h _ => h⟩
  rcases hunchains.jmpTarget x with hkeep | hstub
  · exact hkeep.symm.trans htarget
  · have hblock : JmpTarget.stub x.1 x.2 = .block target := hstub.symm.trans htarget
    cases hblock

theorem tame_emitExit (w : World 1) (addr : Nat) (state : TbCpuState) :
    Tame w (w.emitExit addr state) := by
  refine ⟨rfl,fun _ => rfl,fun _ => rfl,fun _ _ h => h,fun other exit target hexit ht => ?_⟩
  rw [emitExit_llvm] at hexit
  by_cases hother : other = addr
  · subst hother
    have hnew : (⟨w.llvm.chainPoint.length,state,none⟩ : RegionExit) = exit := by
      simpa using hexit
    rw [← hnew] at ht
    cases ht
  · simpa [hother] using hexit

theorem Advances.trans (hclean : Clean w → Clean next) (h : Advances w next)
    (hlast : Advances next last) : Advances w last := by
  intro hw hlink
  have hnext := h hw hlink
  have hafter := hlast (hclean hw) hnext.1
  exact ⟨hafter.1,hnext.2.trans hafter.2⟩

theorem tbFlush_tbFlushVersion (h : w.tbFlush cfg 0 = some next) :
    next.tbFlushVersion = w.tbFlushVersion+1 := by
  unfold tbFlush at h
  split at h
  · cases h
  · cases h
    rfl

theorem not_current_of_tbFlush (hclean : Clean w) (h : w.tbFlush cfg 0 = some next) (tb : TbId) :
    ¬ Current next tb := by
  intro htb
  have hdesc : next.desc = w.desc := by
    unfold tbFlush at h
    split at h
    · cases h
    · cases h
      rfl
  unfold Current at htb
  rw [hdesc,tbFlush_tbFlushVersion h] at htb
  have hbound := hclean.bound tb _ htb
  omega

theorem advances_tbFlush (h : w.tbFlush cfg 0 = some next) : Advances w next := by
  intro hclean _
  refine ⟨⟨fun tb n target htb => absurd htb (not_current_of_tbFlush hclean h tb),?_⟩,.inr ?_⟩
  · intro addr exit target hexit
    unfold tbFlush at h
    split at h
    · cases h
    · cases h
      cases hexit
  · have hver := tbFlush_tbFlushVersion h
    omega

theorem advances_allocBase {base : World 1} (h : AllocBase cfg w 0 base) : Advances w base := by
  rcases h with ⟨-,rfl⟩ | ⟨-,hflush⟩
  · exact (tame_refl _).advances
  · exact advances_tbFlush hflush

variable {found : Option TbId}

theorem advances_translated {base : World 1} {state : TbCpuState}
    (h : Translated cfg base state next found) : Advances base next := by
  intro hclean hlink
  have hkeep : ∀ tb, Current base tb → Current next tb := fun tb => translated_current h
  refine ⟨⟨fun tb n target htb hoff htarget => ?_,fun addr exit target hexit htarget => ?_⟩,
    Or.inl ⟨h.tbFlushVersion,hkeep⟩⟩
  · have hold : tb ≠ base.nbTbs → base.links.jmpTarget (tb,n) = .block target →
        Current next target := by
      intro hslot hbase
      rw [h.desc tb hslot] at hoff
      exact hkeep target (hlink.chain tb n target (current_of_translated h hslot htb) hoff hbase)
    cases found with
    | none =>
      have hfaulted := h.faulted rfl
      rw [hfaulted.1] at htarget
      refine hold (fun hslot => ?_) htarget
      have hbase : Current base tb := by
        unfold Current at htb ⊢
        rwa [hslot,h.tbFlushVersion,hfaulted.2.1,← hslot] at htb
      exact absurd (hclean.index tb hbase) (by rw [hslot]; exact Nat.lt_irrefl _)
    | some new =>
      obtain ⟨hnew,-,-,physPage2,hlinks⟩ := h.linked new rfl
      rw [hlinks,Links.tbLinkPage_jmpTarget] at htarget
      split at htarget
      · cases htarget
      rename_i hother
      refine hold (fun hslot => hother ?_) htarget
      have htb' : tb = new := hslot.trans hnew.symm
      exact ⟨htb',htb' ▸ hoff⟩
  · rw [h.llvm] at hexit
    exact hkeep target (hlink.exits addr exit target hexit htarget)

theorem advances_genCode {state : TbCpuState} {cflags : Nat} {gen : Option GenCode}
    (h : w.tbGenCode cfg 0 state cflags gen = some (next,found)) : Advances w next := by
  obtain ⟨base,hbase,hnext⟩ := tbGenCode_some h
  exact (advances_allocBase hbase).trans (fun hclean => hclean.allocBase hbase) (advances_translated
      hnext)

theorem advances_findFast (h : FindFast cfg w 0 next found) : Advances w next := by
  have hflag : Advances w { w with tbInvalidatedFlag := false } := (tame_setFlag w false).advances
  have hclean : Clean w → Clean { w with tbInvalidatedFlag := false } :=
    fun hclean => hclean.setFlag false
  cases h with
  | cached tb hhit => exact (tame_startProfileIfCold w tb).advances
  | hashed tb hfound =>
    have hprof := (tame_setFlag w false).trans (tame_startProfileIfCold _ tb)
    exact (hprof.trans (tame_updateCpu _ _)).advances
  | translated base mid tb hmiss hbase hmid =>
    have hstart := hflag.trans hclean (advances_allocBase hbase)
    have hgen := hstart.trans (fun h => (hclean h).allocBase hbase) (advances_translated hmid)
    exact hgen.trans (fun h => ((hclean h).allocBase hbase).translated hmid)
      (tame_updateCpu _ _).advances
  | faulted base mid hmiss hbase hmid =>
    have hstart := hflag.trans hclean (advances_allocBase hbase)
    exact hstart.trans (fun h => (hclean h).allocBase hbase) (advances_translated hmid)

theorem findFlushes_of_lt (h : FindFast cfg w 0 next found)
    (hlt : w.tbFlushVersion < next.tbFlushVersion) : FindFlushes cfg w 0 := by
  have href : ∀ base : World 1, AllocBase cfg { w with tbInvalidatedFlag := false } 0 base →
      w.tbFlushVersion < base.tbFlushVersion → w.tbAllocRefused cfg = true := by
    rintro base (⟨-,rfl⟩ | ⟨href,-⟩) hlt
    · exact absurd hlt (Nat.lt_irrefl _)
    · exact href
  cases h with
  | cached tb hhit => simp at hlt
  | hashed tb hfound => simp [setTbJmpCache] at hlt
  | translated base mid tb hmiss hbase hmid =>
    simp only [setTbJmpCache,updateCpu_tbFlushVersion,hmid.tbFlushVersion] at hlt
    exact ⟨hmiss,href base hbase hlt⟩
  | faulted base mid hmiss hbase hmid =>
    rw [hmid.tbFlushVersion] at hlt
    exact ⟨hmiss,href base hbase hlt⟩

theorem Linked.chainNext {nextTb : NextTb} (hlink : Linked w) (htb : Current w tb)
    (h : w.chainNext nextTb tb = some next) : Linked next := by
  have hsame := sameBlocks_chainNext h
  have hoff : ∀ x, (next.desc x).nextOffset = (w.desc x).nextOffset := by
    intro x
    rcases (chainNext_some h).2.2.2.2.2 with hdesc | hdesc
    · rw [hdesc]
    · rw [hdesc]
      exact (tame_startProfileIfCold w tb).nextOffset x
  refine ⟨fun x n target hx hjump htarget => ?_,fun addr exit target hexit htarget => ?_⟩
  · rw [hsame.current] at hx ⊢
    rw [hoff] at hjump
    rcases (chainNext_target h).1 (x,n) target htarget with hold | rfl
    · exact hlink.chain x n target hx hjump hold
    · exact htb
  · rw [hsame.current]
    rcases (chainNext_target h).2 addr exit target hexit htarget with hold | rfl
    · exact hlink.exits addr exit target hold htarget
    · exact htb

theorem Linked.finishTrace {entryTb : TbId} {code cacheVersion : Nat} (hlink : Linked w)
    (hentry : w.tbFlushVersion = cacheVersion → Current w entryTb) :
    Linked (w.finishTrace entryTb code cacheVersion) := by
  by_cases hgood : w.llvm.llvmFlush = false ∧ w.tbFlushVersion = cacheVersion
  · obtain ⟨hflush,rfl⟩ := hgood
    have hsame := sameBlocks_finishTrace w entryTb code w.tbFlushVersion
    refine ⟨fun x n target hx hjump htarget => ?_,fun addr exit target hexit htarget => ?_⟩
    · rw [hsame.current] at hx ⊢
      rw [(finishTrace_same ..).2.1] at htarget
      refine hlink.chain x n target hx ?_ htarget
      rcases finishTrace_desc w entryTb code w.tbFlushVersion x with hdesc | ⟨-,hdesc⟩
      · rwa [hdesc] at hjump
      · rwa [hdesc] at hjump
    · rw [hsame.current]
      obtain ⟨old,hold,-,-,hpatch⟩ := (patched_finishTrace w entryTb code hflush).before hexit
      rcases hpatch with ⟨-,hnew⟩ | ⟨-,hkeep⟩
      · have htb : entryTb = target := some.inj (hnew.symm.trans htarget)
        exact htb ▸ hentry rfl
      · exact hlink.exits addr old target hold (hkeep.symm.trans htarget)
  · rw [finishTrace_dropped w entryTb code cacheVersion hgood]
    exact hlink

structure Predicting (w : World 1) : Prop where
  current : ∀ tb ∈ (w.cpus 0).predictedTb, Current w tb
  idle : (w.cpus 0).startTracePrediction = false → (w.cpus 0).predictedTb = []

theorem predicting_of_nil (hnil : (w.cpus 0).predictedTb = []) : Predicting w :=
  ⟨fun tb htb => by simp [hnil] at htb,fun _ => hnil⟩

theorem Predicting.of_same (h : Predicting w) (hpages : ∀ tb, Current w tb → Current next tb)
    (hstart : (next.cpus 0).startTracePrediction = (w.cpus 0).startTracePrediction)
    (hpredicted : (next.cpus 0).predictedTb = (w.cpus 0).predictedTb) : Predicting next := by
  refine ⟨fun tb htb => ?_,fun hidle => ?_⟩
  · rw [hpredicted] at htb
    exact hpages tb (h.current tb htb)
  · rw [hstart] at hidle
    rw [hpredicted]
    exact h.idle hidle

theorem Predicting.of_sameGuest (h : Predicting w) (hpages : ∀ tb, Current w tb → Current next tb)
    (hguest : SameGuest w next) : Predicting next :=
  h.of_same hpages (hguest.startTracePrediction 0) (hguest.predictedTb 0)

theorem Predicting.runGuest (h : Predicting w) (state : TbCpuState) :
    Predicting (w.runGuest 0 state) := by
  apply h.of_same
  · exact fun _ htb => htb
  · simp [World.runGuest]
  · simp [World.runGuest]

theorem tame_loopExit (w : World 1) : Tame w (w.loopExit 0) := by
  unfold loopExit
  split
  · exact tame_updateCpu w _
  · exact tame_refl w

theorem loopExit_predictedTb
    (hidle : (w.cpus 0).startTracePrediction = false → (w.cpus 0).predictedTb = []) :
    ((w.loopExit 0).cpus 0).predictedTb = [] := by
  unfold loopExit
  split
  · simp [stopPrediction]
  · rename_i hstart
    exact hidle (by simpa using hstart)

theorem tame_updateDesc (w : World 1) (tb : TbId) (f : TbDesc → TbDesc)
    (hver : ∀ desc, (f desc).version = desc.version)
    (hoff : ∀ desc, (f desc).nextOffset = desc.nextOffset) : Tame w (w.updateDesc tb f) := by
  refine ⟨rfl,fun x => ?_,fun x => ?_,fun _ _ h => h,fun _ _ _ h _ => h⟩
  all_goals
    by_cases hx : x = tb
    · subst hx
      simp [hver,hoff]
    · simp [hx]

theorem helperTraceProfile_traces (h : Predicting w) (tb : TbId) :
    Tame w (w.helperTraceProfile 0 tb) ∧ Predicting (w.helperTraceProfile 0 tb) := by
  unfold helperTraceProfile
  have hcount : Tame w (w.updateDesc tb fun desc =>
      { desc with execCount := desc.execCount+1 }) :=
    tame_updateDesc w tb _ (fun _ => rfl) fun _ => rfl
  dsimp only
  split
  · have htame := (hcount.trans (tame_updateDesc _ tb (fun desc =>
      { desc with jmpEntry := .predictStub }) (fun _ => rfl) fun _ => rfl)).trans
      (tame_updateCpu _ fun cpu => { cpu with startTracePrediction := true })
    refine ⟨htame,fun x hx => ?_,fun hidle => ?_⟩
    · rw [htame.current]
      exact h.current x (by simpa using hx)
    · simp at hidle
  · exact ⟨hcount,h.of_same (fun x hx => (hcount.current x).mpr hx) rfl rfl⟩

theorem mem_loopCalls {predictedTb : List TbId} {i : Nat} {call : TraceCall}
    (hcall : call ∈ loopCalls predictedTb i) (htb : tb ∈ call.tbs) : tb ∈ predictedTb := by
  unfold loopCalls at hcall
  split at hcall
  · rw [mem_singleton.mp hcall] at htb
    exact htb
  · rcases mem_cons.mp hcall with rfl | hcall
    · exact mem_of_mem_drop htb
    · rw [mem_singleton.mp hcall] at htb
      exact htb

theorem predictStub_traces (h : Predicting w) (htb : Current w tb) :
    Tame w (w.predictStub 0 tb).1 ∧ Predicting (w.predictStub 0 tb).1 ∧
      ∀ call ∈ (w.predictStub 0 tb).2, ∀ x ∈ call.tbs, Current w x := by
  have happend : ∀ x ∈ (w.cpus 0).predictedTb ++ [tb], Current w x := by
    intro x hx
    rcases mem_append.mp hx with hold | hnew
    · exact h.current x hold
    · rw [mem_singleton.mp hnew]
      exact htb
  have hstop : Tame w (w.stopPrediction 0) ∧ Predicting (w.stopPrediction 0) :=
    ⟨tame_updateCpu w _,predicting_of_nil (by simp [stopPrediction])⟩
  unfold predictStub
  split
  · rename_i hstart
    unfold helperTracePredict
    dsimp only
    split
    · refine ⟨hstop.1,hstop.2,fun call hcall x hx => ?_⟩
      exact h.current x (mem_loopCalls hcall hx)
    · split
      · refine ⟨hstop.1,hstop.2,fun call hcall x hx => ?_⟩
        rw [mem_singleton.mp hcall] at hx
        exact happend x hx
      · dsimp only
        refine ⟨tame_updateCpu w _,⟨fun x hx => ?_,fun hidle => ?_⟩,by simp⟩
        · exact happend x (by simpa using hx)
        · simp [hstart] at hidle
  · exact ⟨tame_refl w,h,by simp⟩

structure Enters (w : World 1) (tb : TbId) (result : Machine × List TraceCall) : Prop where
  tame : Tame w result.1.world
  predicting : Predicting result.1.world
  phase : result.1.phase = .block tb ∨ result.1.phase = .region tb
  calls : ∀ call ∈ result.2, ∀ x ∈ call.tbs, Current w x

theorem enters_enterTb (h : Predicting w) (htb : Current w tb) : Enters w tb (enterTb w tb) := by
  unfold enterTb
  split
  · exact ⟨tame_refl w,h,.inr rfl,by simp⟩
  · have hprof := helperTraceProfile_traces h tb
    have hpre := predictStub_traces hprof.2 ((hprof.1.current tb).mpr htb)
    refine ⟨hprof.1.trans hpre.1,hpre.2.1,.inl rfl,fun call hcall x hx => ?_⟩
    exact (hprof.1.current x).mp (hpre.2.2 call hcall x hx)
  · have hpre := predictStub_traces h htb
    exact ⟨hpre.1,hpre.2.1,.inl rfl,hpre.2.2⟩

theorem enters_enterOpt (h : Predicting w) (htb : Current w tb) : Enters w tb (enterOpt w tb) := by
  unfold enterOpt
  split
  · exact ⟨tame_refl w,h,.inr rfl,by simp⟩
  · exact enters_enterTb h htb

structure Tracing (m : Machine) : Prop where
  sound : Sound m
  linked : Linked m.world
  predicting : Predicting m.world
  code : ∀ tb, m.phase = .block tb ∨ m.phase = .region tb → Current m.world tb

/-- The steps that flush without ending the prediction: a lookup that finds nothing
and cannot allocate, and an explicit flush. -/
def flushes (cfg : Config) (m : Machine) : Action → Bool
  | .find _ => m.world.findMisses cfg 0 && m.world.tbAllocRefused cfg
  | .flush => true
  | _ => false

def FlushesIdle (cfg : Config) (m : Machine) (action : Action) : Prop :=
  flushes cfg m action = true →
    Machine.inCode m.phase = false ∧ (m.world.cpus 0).predictedTb = []

instance (m : Machine) : DecidablePred (FlushesIdle cfg m) :=
  fun _ => inferInstanceAs (Decidable (_ = true → _ = false ∧ _ = []))

structure Follows (m after : Machine) (calls : List TraceCall) : Prop where
  linked : Linked after.world
  ages : Ages m.world after.world
  predicting : Predicting after.world
  code : ∀ tb, after.phase = .block tb ∨ after.phase = .region tb → Current after.world tb
  calls : ∀ call ∈ calls, ∀ tb ∈ call.tbs, Current after.world tb

variable {m : Machine}

section

variable (h : Tracing m)
include h

theorem follows_outside {phase : Phase} (htame : Tame m.world next) (hpred : Predicting next)
    (hphase : inCode phase = false) : Follows m ⟨next,phase⟩ [] := by
  refine ⟨h.linked.of_tame htame,htame.ages,hpred,fun tb htb => ?_,by simp⟩
  rcases htb with hblock | hreg
  · simp only at hblock
    simp [hblock,inCode] at hphase
  · simp only at hreg
    simp [hreg,inCode] at hphase

theorem follows_loopExit (state : TbCpuState) :
    Follows m ⟨(m.world.runGuest 0 state).loopExit 0,.outside⟩ [] := by
  have htame := (tame_updateCpu m.world fun cpu => { cpu with state := state }).trans
    (tame_loopExit (m.world.runGuest 0 state))
  apply follows_outside h htame _ rfl
  exact predicting_of_nil (loopExit_predictedTb (h.predicting.runGuest state).idle)

theorem follows_entered {mid : World 1} {result : Machine × List TraceCall}
    (htame : Tame m.world mid) (hmid : Current mid tb) (henters : Enters mid tb result) :
    Follows m result.1 result.2 := by
  have hall := htame.trans henters.tame
  have hback : ∀ x, Current mid x → Current result.1.world x :=
    fun x hx => (henters.tame.current x).mpr hx
  refine ⟨h.linked.of_tame hall,hall.ages,henters.predicting,fun x hx => ?_,
    fun call hcall x hx => hback x (henters.calls call hcall x hx)⟩
  have hmem : x = tb := by
    rcases henters.phase with hphase | hphase <;> rcases hx with hx | hx <;>
      rw [hphase] at hx <;> cases hx <;> rfl
  rw [hmem]
  exact hback tb hmid

theorem follows_same_phase (hlink : Linked next)
    (hver : next.tbFlushVersion = m.world.tbFlushVersion)
    (hcur : ∀ tb, Current m.world tb → Current next tb) (hguest : SameGuest m.world next) :
    Follows m ⟨next,m.phase⟩ [] :=
  ⟨hlink,.inl ⟨hver,hcur⟩,h.predicting.of_sameGuest hcur hguest,
    fun tb htb => hcur tb (h.code tb htb),by simp⟩

theorem follows_findNext {after : Machine} {nextTb : NextTb} {gen : Option GenCode}
    (hcond : FindFlushes cfg m.world 0 → (m.world.cpus 0).predictedTb = [])
    (hs : findNext cfg m.world nextTb gen = some after) : Follows m after [] := by
  simp only [findNext,bind_eq_bind,bind_eq_some_iff,Prod.exists] at hs
  obtain ⟨mid,found,hfind,hs⟩ := hs
  have hfast := tbFindFast_some hfind
  have hmid := advances_findFast hfast h.sound.good.clean h.linked
  have hguest := sameGuest_composes.findFast hfast
  have hpred : Predicting mid := by
    rcases hmid.2 with ⟨-,hcur⟩ | hlt
    · exact h.predicting.of_sameGuest hcur hguest
    apply predicting_of_nil
    rw [hguest.predictedTb]
    exact hcond (findFlushes_of_lt hfast hlt)
  cases found with
  | none =>
    cases hs
    have htame := tame_loopExit mid
    refine ⟨hmid.1.of_tame htame,hmid.2.trans htame.ages,
      predicting_of_nil (loopExit_predictedTb hpred.idle),by simp,by simp⟩
  | some tb =>
    simp only [bind_eq_some_iff] at hs
    obtain ⟨chained,hchain,hs⟩ := hs
    cases hs
    have htb := (h.sound.good.clean.findFast hfast).2 tb rfl
    have hsame := sameBlocks_chainNext hchain
    have hcur : ∀ x, Current mid x → Current chained x := fun x hx => (hsame.current x).mpr hx
    refine ⟨hmid.1.chainNext htb hchain,
      hmid.2.trans (.inl ⟨hsame.tbFlushVersion,hcur⟩),?_,by simp,by simp⟩
    exact hpred.of_sameGuest hcur (sameGuest_of_cpus (chainNext_some hchain).1)

theorem follows_startTb (hphase : m.phase = .found tb) :
    Follows m (startTb m.world tb).1 (startTb m.world tb).2 := by
  have htb := (h.sound.found tb hphase).1
  have hput : Tame m.world
      (if (m.world.cpus 0).updateIbtc then m.world.updateIbtcEntry 0 tb else m.world) ∧
      SameGuest m.world
        (if (m.world.cpus 0).updateIbtc then m.world.updateIbtcEntry 0 tb else m.world) := by
    split
    · exact ⟨tame_updateIbtcEntry m.world tb,sameGuest_updateIbtcEntry m.world 0 tb⟩
    · exact ⟨tame_refl _,sameGuest_of_cpus rfl⟩
  have hcur := (hput.1.current tb).mpr htb
  have hpred := h.predicting.of_sameGuest (fun x hx => (hput.1.current x).mpr hx) hput.2
  exact follows_entered h hput.1 hcur (enters_enterOpt hpred hcur)

end

theorem follows_branchIndirect (cfg : Config) (h : Tracing m) (eip csBase flags : Nat) :
    Follows m (branchIndirect cfg m.world eip csBase flags).1
      (branchIndirect cfg m.world eip csBase flags).2 := by
  let state : TbCpuState := ⟨pcOfEip cfg eip csBase,csBase,flags⟩
  let guest := m.world.runGuest 0 state
  have hguest : Tame m.world guest := tame_updateCpu m.world _
  have hlook : Tame m.world (guest.helperLookupIbtc cfg 0 eip).1 :=
    hguest.trans (tame_lookupIbtc guest eip)
  have hpred : Predicting (guest.helperLookupIbtc cfg 0 eip).1 := by
    have hstart : Predicting guest := h.predicting.runGuest state
    rcases helperLookupIbtc_world cfg guest 0 eip with hsame | hmiss
    · rw [hsame]
      exact hstart
    · rw [hmiss]
      exact hstart.of_sameGuest (fun _ hx => hx) (sameGuest_updateCpu 0 _ fun _ => ⟨rfl,rfl,rfl⟩)
  change Follows m
    (jumpIbtc (guest.helperLookupIbtc cfg 0 eip).1 (guest.helperLookupIbtc cfg 0 eip).2).1
    (jumpIbtc (guest.helperLookupIbtc cfg 0 eip).1 (guest.helperLookupIbtc cfg 0 eip).2).2
  cases htarget : (guest.helperLookupIbtc cfg 0 eip).2 with
  | optPtr tb ptr =>
    have hentry := ((helperLookupIbtc_optPtr guest 0 eip tb ptr).mp htarget).1
    have htb : Current m.world tb := by
      apply h.sound.good.tables 0 (eip &&& ibtcCacheMask) tb
      simp only [guest,World.runGuest,updateCpu_cpus,Function.update_self] at hentry
      rw [hentry]
    have hcur := (hlook.current tb).mpr htb
    exact follows_entered h hlook hcur (enters_enterOpt hpred hcur)
  | ibtcRetAddr | nullTb => exact follows_outside h hlook hpred rfl

theorem follows_step {after : Machine} {action : Action} {calls : List TraceCall} (h : Tracing m)
    (hcond : FlushesIdle cfg m action)
    (hfinish : ∀ entryTb code cacheVersion, action = .finishTrace entryTb code cacheVersion →
      m.world.tbFlushVersion = cacheVersion → Current m.world entryTb)
    (hs : m.stepCalls cfg action = some (after,calls)) : Follows m after calls := by
  have hguest : ∀ state, Tame m.world (m.world.runGuest 0 state) :=
    fun state => tame_updateCpu m.world _
  have hexit : Follows m ⟨m.world.loopExit 0,.outside⟩ [] :=
    follows_outside h (tame_loopExit m.world)
      (predicting_of_nil (loopExit_predictedTb h.predicting.idle)) rfl
  cases action with
  | cpuExec =>
    simp only [stepCalls] at hs
    split at hs
    · cases hs
      exact follows_outside h (tame_refl _) h.predicting rfl
    · cases hs
  | deliver state | interrupt state | exitTb state =>
    simp only [stepCalls] at hs
    split at hs
    · cases hs
      exact follows_outside h (hguest state) (h.predicting.runGuest state) rfl
    · cases hs
  | exitRequest | skip =>
    simp only [stepCalls] at hs
    split at hs
    · cases hs
      exact hexit
    · cases hs
  | find gen =>
    simp only [stepCalls] at hs
    split at hs
    · simp only [map_eq_some_iff,Prod.mk.injEq] at hs
      obtain ⟨found,hfind,rfl,rfl⟩ := hs
      exact follows_findNext h
        (fun hflushes => (hcond (by simp [flushes,hflushes.1,hflushes.2])).2) hfind
    · cases hs
  | start =>
    simp only [stepCalls] at hs
    split at hs
    · rename_i tb hphase
      have hstarted := follows_startTb h hphase
      rw [some.inj hs] at hstarted
      exact hstarted
    · cases hs
  | direct n state =>
    simp only [stepCalls] at hs
    split at hs
    · rename_i tb hphase
      split at hs
      · rename_i hoff
        split at hs
        · rename_i target htarget
          have hcur : Current m.world target :=
            h.linked.chain tb n target (h.code tb (.inl hphase)) hoff htarget
          have henters := enters_enterTb (h.predicting.runGuest state) hcur
          have henter := follows_entered h (hguest state) hcur henters
          rw [some.inj hs] at henter
          exact henter
        · cases hs
          exact follows_outside h (hguest state) (h.predicting.runGuest state) rfl
      · cases hs
    · cases hs
  | indirect eip csBase flags =>
    simp only [stepCalls] at hs
    split at hs
    · have hbranch := follows_branchIndirect cfg h eip csBase flags
      rw [some.inj hs] at hbranch
      exact hbranch
    · cases hs
  | regionExit addr =>
    simp only [stepCalls] at hs
    split at hs
    · rename_i exit hphase hfound
      split at hs
      · rename_i target htarget
        have hcur := h.linked.exits addr exit target hfound htarget
        have henters := enters_enterOpt (h.predicting.runGuest exit.state) hcur
        have henter := follows_entered h (hguest exit.state) hcur henters
        rw [some.inj hs] at henter
        exact henter
      · cases hs
        exact follows_outside h (hguest exit.state) (h.predicting.runGuest exit.state) rfl
    · cases hs
  | exception state =>
    simp only [stepCalls] at hs
    split at hs
    · cases hs
      exact follows_loopExit h state
    · cases hs
  | invalidate tb pageAddr =>
    simp only [stepCalls,map_eq_some_iff,Prod.mk.injEq] at hs
    obtain ⟨next,hnext,rfl,rfl⟩ := hs
    have htame := tame_physInvalidate hnext
    exact follows_same_phase h (h.linked.of_tame htame) htame.tbFlushVersion
      (fun x hx => (htame.current x).mpr hx) (sameGuest_physInvalidate hnext)
  | regenerate state gen =>
    simp only [stepCalls] at hs
    split at hs
    · simp only [map_eq_some_iff,Prod.mk.injEq,Prod.exists] at hs
      obtain ⟨next,found,hnext,rfl,rfl⟩ := hs
      have hgen := advances_genCode hnext h.sound.good.clean h.linked
      have htame := tame_loopExit next
      refine ⟨hgen.1.of_tame htame,hgen.2.trans htame.ages,
        predicting_of_nil (loopExit_predictedTb fun hidle => ?_),by simp,by simp⟩
      have hsame := sameGuest_composes.genCode hnext
      rw [hsame.startTracePrediction] at hidle
      rw [hsame.predictedTb]
      exact h.predicting.idle hidle
    · cases hs
  | flush =>
    simp only [stepCalls] at hs
    split at hs
    · simp only [map_eq_some_iff,Prod.mk.injEq] at hs
      obtain ⟨next,hnext,rfl,rfl⟩ := hs
      have hflush := advances_tbFlush hnext h.sound.good.clean h.linked
      refine ⟨hflush.1,hflush.2,predicting_of_nil ?_,fun tb htb => ?_,by simp⟩
      · rw [(sameGuest_tbFlush hnext).predictedTb]
        exact (hcond rfl).2
      · have hphase : inCode m.phase = false := (hcond rfl).1
        rcases htb with hblock | hreg
        · simp [show m.phase = .block tb from hblock,inCode] at hphase
        · simp [show m.phase = .region tb from hreg,inCode] at hphase
    · cases hs
  | requestFlush =>
    obtain ⟨rfl,rfl⟩ := hs
    have htame : Tame m.world m.world.requestFlush :=
      ⟨rfl,fun _ => rfl,fun _ => rfl,fun _ _ h => h,fun _ _ _ hexit _ => hexit⟩
    exact follows_same_phase h (h.linked.of_tame htame) rfl (fun _ hx => hx)
      (sameGuest_of_cpus rfl)
  | emitExit addr state =>
    simp only [stepCalls,World.step,map_eq_some_iff,Prod.mk.injEq] at hs
    obtain ⟨next,hnext,rfl,rfl⟩ := hs
    split at hnext
    · cases hnext
      have htame := tame_emitExit m.world addr state
      exact follows_same_phase h (h.linked.of_tame htame) rfl (fun _ hx => hx)
        (sameGuest_of_cpus rfl)
    · cases hnext
  | finishTrace entryTb code cacheVersion =>
    obtain ⟨rfl,rfl⟩ := hs
    have hsame := sameBlocks_finishTrace m.world entryTb code cacheVersion
    exact follows_same_phase h
      (h.linked.finishTrace (hfinish entryTb code cacheVersion rfl)) hsame.tbFlushVersion
      (fun x hx => (hsame.current x).mpr hx)
      (sameGuest_of_cpus (finishTrace_same m.world entryTb code cacheVersion).1)

structure TraceRequest where
  tbs : List TbId
  loopIdx : Option Nat
  cacheVersion : Nat
deriving DecidableEq, Repr

structure Session where
  machine : Machine
  requests : List TraceRequest

namespace Session

def initial : Session := ⟨Machine.initial,[]⟩

def admits (s : Session) : Action → Bool
  | .finishTrace entryTb _ cacheVersion =>
    s.requests.any fun r => r.tbs.head? == some entryTb && r.cacheVersion == cacheVersion
  | _ => true

def step (cfg : Config) (s : Session) (action : Action) : Option Session :=
  if s.admits action then do
    let (machine,calls) ← s.machine.stepCalls cfg action
    let version := machine.world.tbFlushVersion
    return ⟨machine,s.requests ++ calls.map fun call => ⟨call.tbs,call.loopIdx,version⟩⟩
  else none

end Session

def TracesCurrent (s : Session) : Prop :=
  ∀ r ∈ s.requests, r.cacheVersion = s.machine.world.tbFlushVersion →
    ∀ tb ∈ r.tbs, Current s.machine.world tb

instance : DecidablePred TracesCurrent :=
  fun s => inferInstanceAs (Decidable (∀ r ∈ s.requests, _ → ∀ tb ∈ r.tbs, _))

structure Requested (s : Session) : Prop where
  tracing : Tracing s.machine
  past : ∀ r ∈ s.requests, r.cacheVersion ≤ s.machine.world.tbFlushVersion
  traces : TracesCurrent s

theorem Ages.requests {requests : List TraceRequest} (h : Ages w next)
    (hpast : ∀ r ∈ requests, r.cacheVersion ≤ w.tbFlushVersion)
    (htrace : ∀ r ∈ requests, r.cacheVersion = w.tbFlushVersion → ∀ tb ∈ r.tbs, Current w tb) :
    ∀ r ∈ requests, r.cacheVersion ≤ next.tbFlushVersion ∧
      (r.cacheVersion = next.tbFlushVersion → ∀ tb ∈ r.tbs, Current next tb) := by
  intro r hr
  have hle := hpast r hr
  rcases h with ⟨hver,hcur⟩ | hlt
  · refine ⟨hver ▸ hle,fun hr' tb htb => hcur tb (htrace r hr (hver ▸ hr') tb htb)⟩
  · exact ⟨by omega,fun hr' => by omega⟩

theorem Requested.step {s after : Session} {action : Action} (h : Requested s)
    (hcond : FlushesIdle cfg s.machine action) (hs : s.step cfg action = some after) :
    Requested after := by
  unfold Session.step at hs
  split at hs
  · rename_i hadmitted
    simp only [bind_eq_bind,bind_eq_some_iff,Prod.exists] at hs
    obtain ⟨machine,calls,hclass,hs⟩ := hs
    cases hs
    have hfinish : ∀ entryTb code cacheVersion, action = .finishTrace entryTb code cacheVersion →
        s.machine.world.tbFlushVersion = cacheVersion → Current s.machine.world entryTb := by
      rintro entryTb code cacheVersion rfl hver
      simp only [Session.admits,List.any_eq_true,Bool.and_eq_true,beq_iff_eq] at hadmitted
      obtain ⟨r,hr,hhead,hreq⟩ := hadmitted
      exact h.traces r hr (hreq.trans hver.symm) entryTb (mem_of_mem_head? hhead)
    have hfollow := follows_step h.tracing hcond hfinish hclass
    have hold := hfollow.ages.requests h.past h.traces
    have hmachine : s.machine.step cfg action = some machine := by
      simp [Machine.step,hclass]
    have hsound : Sound machine := (step_entriesDenote h.tracing.sound hmachine).1
    refine ⟨⟨hsound,hfollow.linked,hfollow.predicting,hfollow.code⟩,fun r hr => ?_, fun r hr hver =>
        ?_⟩
    · rcases mem_append.mp hr with hr | hr
      · exact (hold r hr).1
      · obtain ⟨call,-,rfl⟩ := mem_map.mp hr
        exact Nat.le_refl _
    · rcases mem_append.mp hr with hr | hr
      · exact (hold r hr).2 hver
      · obtain ⟨call,hcall,rfl⟩ := mem_map.mp hr
        exact hfollow.calls call hcall
  · cases hs

theorem requested_initial : Requested Session.initial where
  tracing := ⟨sound_initial,⟨nofun,nofun⟩,⟨nofun,fun _ => rfl⟩,nofun⟩
  past := nofun
  traces := nofun

/-- When every flush finds no blocks collected and no code running, the regions are
composed of blocks translated since the last flush only. -/
theorem traces_current_of_flushesIdle (cfg : Config) (actions : List Action)
    (h : Meets (Session.step cfg) (fun s => FlushesIdle cfg s.machine) Session.initial actions) :
    Always (Session.step cfg) TracesCurrent Session.initial actions := by
  have hall := always_of_meets (fun s action after hs hcond hstep => hs.step hcond hstep)
    requested_initial h
  exact hall.imp fun s hs => hs.traces

def loopBlock : GenCode := ⟨4,32,fun n => if n = 0 then some 16 else none⟩

def hotLoop : List Action :=
  [.deliver ⟨0x1000,0,0⟩,.cpuExec,.find (some loopBlock),.start,.direct 0 ⟨0x1000,0,0⟩,
    .find none,.start] ++ List.replicate 50 (.direct 0 ⟨0x1000,0,0⟩) ++
  [.exitTb ⟨0x2000,0,0⟩,.exitRequest,.flush]

theorem traces_current_of_hotLoop :
    Always (Session.step smallConfig) TracesCurrent Session.initial hotLoop ∧
      (run (Session.step smallConfig) Session.initial hotLoop).map Session.requests =
        some [⟨[0], some 0, 0⟩] := by
  refine ⟨traces_current_of_flushesIdle smallConfig hotLoop ?_,?_⟩
  · decide +kernel
  · decide +kernel

def flushedPrediction : List Action :=
  [.deliver ⟨0x1000,0,0⟩,.cpuExec,.find (some smallBlock),.start,.exitTb ⟨0x2000,0,0⟩,
    .find (some loopBlock),.start,.direct 0 ⟨0x2000,0,0⟩,.find none,.start] ++
  List.replicate 49 (.direct 0 ⟨0x2000,0,0⟩) ++
  [.exitTb ⟨0x3000,0,0⟩,.find (some loopBlock),.start,.direct 0 ⟨0x3000,0,0⟩,.find none,
    .start]

/-- The loop at 0x3000 closes a region that starts with the flushed block. -/
theorem trace_across_flush :
    ∃ s, run (Session.step smallConfig) Session.initial flushedPrediction = some s ∧
      s.requests = [⟨[0], some 0, 1⟩, ⟨[1, 0], some 1, 1⟩] ∧ ¬ TracesCurrent s := by
  have hrun : (run (Session.step smallConfig) Session.initial flushedPrediction).any
      (fun s => s.requests = [⟨[0],some 0,1⟩,⟨[1,0],some 1,1⟩] ∧ ¬ TracesCurrent s) = true := by
    decide +kernel
  simpa [Option.any_eq_true] using hrun

end Hqemu.Exec.Prediction
