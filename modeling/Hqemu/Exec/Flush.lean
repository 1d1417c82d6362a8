import Hqemu.Exec.Ibtc
import Hqemu.Exec.Store

/-! Flushes with several CPUs. `tb_flush` empties the hash table and every CPU's
`tb_jmp_cache`, but only the flushing CPU's IBTC. -/
namespace Hqemu.Exec.Flush

open World Store Ibtc Lib.Run

variable {n : Nat} {cfg : Config} {w next : World n}

def TablesCurrent (w : World n) : Prop :=
  ∀ c slot tb, ((w.cpus c).ibtc slot).tb = some tb → Current w tb

theorem TablesCurrent.of_kept (h : TablesCurrent w) (hkeep : Kept w next)
    (hcur : ∀ tb, Current w tb → Current next tb) : TablesCurrent next := by
  intro c slot tb htb
  rcases hkeep c slot with hsame | hz
  · rw [hsame] at htb
    exact hcur tb (h c slot tb htb)
  · simp [hz] at htb

def OthersEmpty (w : World n) (c : Fin n) : Prop :=
  ∀ d, d ≠ c → ∀ slot, ((w.cpus d).ibtc slot).tb = none

theorem tablesCurrent_tbFlush {c : Fin n} (hothers : OthersEmpty w c)
    (h : w.tbFlush cfg c = some next) : TablesCurrent next := by
  unfold tbFlush at h
  split at h
  · cases h
  cases h
  intro d slot tb htb
  by_cases hd : d = c
  · subst hd
    simp [optimizationReset,ibtcReset,llvmTbFlush] at htb
  · simp [optimizationReset,ibtcReset,llvmTbFlush,hd,hothers d hd] at htb

theorem TablesCurrent.allocBase {c : Fin n} {base : World n} (h : TablesCurrent w)
    (hothers : w.tbAllocRefused cfg = true → OthersEmpty w c)
    (hbase : AllocBase cfg w c base) : TablesCurrent base := by
  rcases hbase with ⟨-,rfl⟩ | ⟨href,hflush⟩
  · exact h
  · exact tablesCurrent_tbFlush (hothers href) hflush

theorem TablesCurrent.translated {base : World n} {state : TbCpuState} {found : Option TbId}
    (h : TablesCurrent base) (hnext : Translated cfg base state next found) : TablesCurrent next :=
  h.of_kept (kept_translated hnext) fun _ htb => translated_current hnext htb

def FindFlushes (cfg : Config) (w : World n) (c : Fin n) : Prop :=
  w.findMisses cfg c = true ∧ w.tbAllocRefused cfg = true

theorem TablesCurrent.findFast {c : Fin n} {found : Option TbId} (h : TablesCurrent w)
    (hothers : FindFlushes cfg w c → OthersEmpty w c) (hfind : FindFast cfg w c next found) :
    TablesCurrent next := by
  have hkeep := kept_composes.findFast hfind
  have hstart {base : World n} (hmiss : w.findMisses cfg c = true)
      (hbase : AllocBase cfg { w with tbInvalidatedFlag := false } c base) : TablesCurrent base :=
    TablesCurrent.allocBase (w := { w with tbInvalidatedFlag := false }) h
      (fun href => hothers ⟨hmiss,href⟩) hbase
  cases hfind with
  | cached tb hhit =>
    exact h.of_kept hkeep fun x hx => ((sameBlocks_startProfileIfCold w tb).current x).mpr hx
  | hashed tb hfound =>
    have hafter := sameBlocks_startProfileIfCold { w with tbInvalidatedFlag := false } tb
    exact h.of_kept hkeep fun x hx => (hafter.current x).mpr hx
  | translated base mid tb hmiss hbase hmid =>
    exact ((hstart hmiss hbase).translated hmid).of_kept (kept_updateCpu c _ fun _ => rfl) fun _
        hx => hx
  | faulted base mid hmiss hbase hmid =>
    exact (hstart hmiss hbase).translated hmid

theorem TablesCurrent.updateIbtcEntry (h : TablesCurrent w) (c : Fin n) {tb : TbId}
    (htb : (w.cpus c).updateIbtc = true → Current w tb) :
    TablesCurrent (w.updateIbtcEntry c tb) := by
  intro d slot block hblock
  rw [(sameBlocks_updateIbtcEntry w c tb).current]
  rw [updateIbtcEntry_ibtc] at hblock
  split at hblock
  · rename_i hput
    cases hblock
    exact htb hput.2.1
  · exact h d slot block hblock

/-- A flush finds every other CPU's table empty, and what is put in a table is a
current block. -/
def FlushesAlone (cfg : Config) (w : World n) : Call n → Prop
  | .findFast c _ => FindFlushes cfg w c → OthersEmpty w c
  | .genCode c _ _ _ => w.tbAllocRefused cfg = true → OthersEmpty w c
  | .updateIbtc c tb => (w.cpus c).updateIbtc = true → Current w tb
  | .flush c => OthersEmpty w c
  | .leaveRegion c addr _ => ∀ exit, w.llvm.exits addr = some exit →
      FindFlushes cfg (w.runGuest c exit.state) c → OthersEmpty w c
  | _ => True

theorem TablesCurrent.leaveRegion {c : Fin n} {addr : Nat} {gen : Option GenCode}
    (h : TablesCurrent w) (hcond : FlushesAlone cfg w (.leaveRegion c addr gen))
    (hs : w.leaveRegion cfg c addr gen = some next) : TablesCurrent next := by
  simp only [World.leaveRegion,Option.bind_eq_bind,Option.bind_eq_some_iff,Prod.exists] at hs
  obtain ⟨exit,hexit,mid,found,hfind,hs⟩ := hs
  have hguest : TablesCurrent (w.runGuest c exit.state) :=
    h.of_kept (kept_updateCpu c _ fun _ => rfl) fun _ hx => hx
  have hothers : FindFlushes cfg (w.runGuest c exit.state) c →
      OthersEmpty (w.runGuest c exit.state) c := by
    intro hflushes d hd slot
    have hempty := hcond exit hexit hflushes d hd slot
    simpa [World.runGuest,hd] using hempty
  have hmid : TablesCurrent mid := hguest.findFast hothers (tbFindFast_some hfind)
  cases found with
  | none =>
    cases hs
    exact hmid
  | some tb =>
    exact hmid.of_kept (kept_chainNext hs) fun x hx =>
      ((sameBlocks_chainNext hs).current x).mpr hx

theorem TablesCurrent.step {call : Call n} (h : TablesCurrent w) (hcond : FlushesAlone cfg w call)
    (hs : w.step cfg call = some next) : TablesCurrent next := by
  cases call with
  | runGuest c state =>
    cases hs
    exact h.of_kept (kept_updateCpu c _ fun _ => rfl) fun _ hx => hx
  | findFast c gen =>
    obtain ⟨found,hfind⟩ := exists_of_map_fst hs
    exact h.findFast hcond (tbFindFast_some hfind)
  | genCode c state cflags gen =>
    obtain ⟨found,hgen⟩ := exists_of_map_fst hs
    obtain ⟨base,hbase,hnext⟩ := tbGenCode_some hgen
    exact (h.allocBase hcond hbase).translated hnext
  | lookupIbtc c eip =>
    have hkeep : Kept w next := kept_step (by simp) hs
    simp only [World.step] at hs
    cases (Option.ite_none_left_eq_some.mp hs).2
    rcases helperLookupIbtc_world cfg w c eip with hsame | hmiss
    · rw [hsame]
      exact h
    · rw [hmiss] at hkeep ⊢
      exact h.of_kept hkeep fun _ hx => hx
  | updateIbtc c tb =>
    cases hs
    exact h.updateIbtcEntry c hcond
  | physInvalidate tb pageAddr =>
    have hkeep : Kept w next := kept_step (by simp) hs
    obtain ⟨ptb,links,-,-,rfl⟩ := tbPhysInvalidate_some hs
    exact h.of_kept hkeep fun _ hx => hx
  | flush c => exact tablesCurrent_tbFlush hcond hs
  | requestFlush =>
    have hkeep : Kept w next := kept_step (by simp) hs
    cases hs
    exact h.of_kept hkeep fun _ hx => hx
  | emitExit addr state =>
    have hkeep : Kept w next := kept_step (by simp) hs
    cases (Option.ite_none_right_eq_some.mp hs).2
    exact h.of_kept hkeep fun _ hx => hx
  | finishTrace entryTb code cacheVersion =>
    cases hs
    exact h.of_kept (kept_finishTrace entryTb code cacheVersion) fun x hx =>
      ((sameBlocks_finishTrace w entryTb code cacheVersion).current x).mpr hx
  | leaveRegion c addr gen => exact h.leaveRegion hcond hs

/-- Every block a CPU can get from its IBTC or its `tb_jmp_cache`, and the code it
is entered at, come from after the most recent flush. -/
def LookupsCurrent (cfg : Config) (w : World n) : Prop :=
  (∀ c state eip tb, Hits cfg w c state eip tb →
    Current w tb ∧ (w.desc tb).optVersion = some w.tbFlushVersion) ∧
  ∀ c state tb, w.tbJmpCacheHit cfg c state = some tb →
    Current w tb ∧ (w.desc tb).optVersion = some w.tbFlushVersion

theorem lookupsCurrent_of_clean (hclean : Clean w) (htables : TablesCurrent w) :
    LookupsCurrent cfg w := by
  constructor
  · intro c state eip tb hhit
    rw [hits_iff] at hhit
    have htb : Current w tb := htables c _ tb (by rw [hhit.1])
    exact ⟨htb,hclean.opt tb htb⟩
  · intro c state tb hhit
    simp only [tbJmpCacheHit,Option.filter_eq_some_iff] at hhit
    have htb : Current w tb := hclean.cache c _ tb hhit.1
    exact ⟨htb,hclean.opt tb htb⟩

/-- In a run whose flushes find every other CPU's table empty, no lookup of any CPU
ever leads to a block or to code from before a flush. -/
theorem lookups_current_of_flushesAlone (cfg : Config) (calls : List (Call n))
    (hmeets : Meets (World.step cfg) (FlushesAlone cfg) (emptyWorld n) calls) :
    Always (World.step cfg) (LookupsCurrent cfg) (emptyWorld n) calls := by
  have halways : Always (World.step cfg) (fun w => Clean w ∧ TablesCurrent w) (emptyWorld n)
      calls :=
    always_of_meets (fun w call next hw hcond hs => ⟨hw.1.step hs,hw.2.step hcond hs⟩)
      ⟨clean_emptyWorld n,nofun⟩ hmeets
  exact halways.imp fun w hw => lookupsCurrent_of_clean hw.1 hw.2

/-- The CPU that fills its table is the one that flushes. -/
theorem lookups_current_of_own_flush :
    Always (World.step smallConfig) (LookupsCurrent smallConfig) (emptyWorld 2)
      [.genCode 0 ⟨0x1000, 0, 0⟩ 0 (some smallBlock), .runGuest 0 ⟨0x1000, 0, 0⟩,
        .lookupIbtc 0 0x1000, .updateIbtc 0 0, .flush 0] := by
  apply lookups_current_of_flushesAlone
  refine meets_cons rfl (fun h => absurd h (by decide)) ?_
  refine meets_cons rfl trivial ?_
  refine meets_cons rfl trivial ?_
  refine meets_cons rfl (fun _ => rfl) ?_
  refine meets_cons rfl ?_ trivial
  intro d hd slot
  have hother : d = 1 := by omega
  subst hother
  rfl

/-- CPU 1 fills its table and CPU 0 flushes; the table of CPU 1 still leads to the
block from before the flush. -/
theorem flushed_block_hit :
    ∃ w, run (World.step smallConfig) (emptyWorld 2)
        [.genCode 1 ⟨0x1000, 0, 0⟩ 0 (some smallBlock), .runGuest 1 ⟨0x1000, 0, 0⟩,
          .lookupIbtc 1 0x1000, .updateIbtc 1 0, .flush 0] = some w ∧
      ¬ LookupsCurrent smallConfig w := by
  refine ⟨_,rfl,fun h => ?_⟩
  have hhit := h.1 1 ⟨0x1000,0,0⟩ 0x1000 0 ⟨_,rfl⟩
  have hver : some 0 = some 1 := hhit.1
  cases hver

end Hqemu.Exec.Flush
