import Hqemu.Exec.UserPages

/-! What translations, invalidations and `page_set_flags` of user-mode emulation do to the flags of
the pages. -/
namespace Hqemu.Exec

open Function List Option Lib.Chain Links Exec.Graph

namespace World

variable {n : Nat} {cfg : Config} {w next : World n} {tb : TbId}

def page2 (cfg : Config) (pc size : Nat) : Option Nat :=
  if pageAlign cfg pc ≠ pageAlign cfg (pc+size-1) then some (pageAlign cfg (pc+size-1))
  else none

structure Linked (cfg : Config) (base : World n) (state : TbCpuState) (gen : GenCode)
    (next : World n) (tb : TbId) : Prop extends
    Translated cfg base state next (some tb) where
  size : (next.desc tb).size = gen.size
  links : next.links =
    base.links.tbLinkPage cfg tb gen.nextOffset state.pc (page2 cfg state.pc gen.size)

variable {c : Fin n} {found : Option TbId}

theorem tbGenCode_linked {state : TbCpuState} {cflags : Nat} {gen : GenCode}
    (h : w.tbGenCode cfg c state cflags (some gen) = some (next,found)) :
    ∃ base tb, found = some tb ∧ AllocBase cfg w c base ∧ Linked cfg base state gen next tb := by
  simp only [tbGenCode,bind_eq_bind,bind_eq_some_iff,Prod.exists] at h
  obtain ⟨opened,tb,halloc,h⟩ := h
  obtain ⟨base,hbase,hall⟩ := tbAllocFlushing_some halloc
  cases h
  refine ⟨base,tb,rfl,hbase,hall.closeTb cflags gen,?_,?_⟩
  · simp [closeTb]
  · simp [closeTb,openTb,updateDesc_links,hall.links,page2]

theorem tbGenCode_faulted {state : TbCpuState} {cflags : Nat}
    (h : w.tbGenCode cfg c state cflags none = some (next,found)) :
    found = none ∧ ∃ base, AllocBase cfg w c base ∧ Translated cfg base state next none := by
  have hfound : found = none := by
    simp only [tbGenCode,bind_eq_bind,bind_eq_some_iff,Prod.exists] at h
    obtain ⟨opened,tb,-,h⟩ := h
    cases h
    rfl
  subst hfound
  exact ⟨rfl,tbGenCode_some h⟩

theorem tbFindFast_of_misses {gen : Option GenCode}
    (h : w.tbFindFast cfg c gen = some (next,found)) (hmiss : w.findMisses cfg c = true) :
    ∃ mid, { w with tbInvalidatedFlag := false }.tbGenCode cfg c (w.cpus c).state 0 gen =
        some (mid,found) ∧
      next = found.elim mid (mid.setTbJmpCache cfg c (w.cpus c).state.pc) := by
  simp only [findMisses,Bool.and_eq_true,isNone_iff_eq_none,beq_iff_eq] at hmiss
  simp only [tbFindFast,hmiss.1,tbFindSlow,bind_eq_bind,bind_eq_some_iff] at h
  obtain ⟨result,hsource,h⟩ := h
  have hret : result = none := some.inj (hsource.symm.trans hmiss.2)
  subst hret
  simp only [bind_eq_some_iff,Prod.exists] at h
  obtain ⟨mid,found',hgen,h⟩ := h
  cases found' with
  | none | some _ =>
    cases h
    exact ⟨_,hgen,rfl⟩

end World

namespace UserPages

variable {n : Nat} {cfg : Config} {s next : UserPages n} {tb : TbId} {p : Nat}

structure Keeps (s next : UserPages n) : Prop where
  hostProt : next.links.hostProt = s.links.hostProt
  pageAddr : next.links.pageAddr = s.links.pageAddr
  desc : next.world.desc = s.world.desc
  mem : next.mem = s.mem
  live : next.live ⊆ s.live
  epoch : next.epoch = s.epoch
  made : next.made = s.made

theorem Keeps.refl (s : UserPages n) : Keeps s s := ⟨rfl,rfl,rfl,rfl,Finset.Subset.refl _,rfl,rfl⟩

theorem Keeps.trans {last : UserPages n} (h : Keeps s next) (hlast : Keeps next last) :
    Keeps s last where
  hostProt := hlast.hostProt.trans h.hostProt
  pageAddr := hlast.pageAddr.trans h.pageAddr
  desc := hlast.desc.trans h.desc
  mem := hlast.mem.trans h.mem
  live := hlast.live.trans h.live
  epoch := hlast.epoch.trans h.epoch
  made := hlast.made.trans h.made

theorem keeps_physInvalidate {skip : Option Nat} (h : s.physInvalidate cfg tb skip = some next) :
    Keeps s next ∧ pageFlags next.links = pageFlags s.links := by
  simp only [UserPages.physInvalidate,map_eq_some_iff] at h
  obtain ⟨w,hw,rfl⟩ := h
  have hkeeps := keepsPages_tbPhysInvalidate hw
  have hdesc : w.desc = s.world.desc := by
    obtain ⟨ptb,links,-,-,rfl⟩ := World.tbPhysInvalidate_some hw
    rfl
  exact ⟨⟨hkeeps.hostProt,hkeeps.pageAddr,hdesc,rfl,Finset.erase_subset _ _,rfl,rfl⟩, funext
      hkeeps.flags⟩

theorem keeps_tbInvalidatePhysPage (h : s.tbInvalidatePhysPage cfg p = some next) :
    Keeps s next ∧ pageFlags next.links = pageFlags s.links := by
  have hwalk : ∀ (limit : Nat) {s next : UserPages n} {ptr : Option (TbId × Slot)},
      UserPages.invalidateList cfg p limit s ptr = some next →
      Keeps s next ∧ pageFlags next.links = pageFlags s.links := by
    intro limit
    induction limit with
    | zero =>
      intro s next ptr hnext
      simp [UserPages.invalidateList] at hnext
    | succ limit ih =>
      intro s next ptr hnext
      cases ptr with
      | none =>
        cases hnext
        exact ⟨Keeps.refl s,rfl⟩
      | some node =>
        simp only [UserPages.invalidateList,bind_eq_bind,bind_eq_some_iff] at hnext
        obtain ⟨mid,hmid,hnext⟩ := hnext
        obtain ⟨hfirst,hfirstFlags⟩ := keeps_physInvalidate hmid
        obtain ⟨hrest,hrestFlags⟩ := ih hnext
        exact ⟨hfirst.trans hrest,hrestFlags.trans hfirstFlags⟩
  simp only [UserPages.tbInvalidatePhysPage,bind_eq_bind,bind_eq_some_iff] at h
  obtain ⟨mid,hmid,h⟩ := h
  cases h
  obtain ⟨hkeeps,hflags⟩ := hwalk _ hmid
  exact ⟨hkeeps.trans ⟨rfl,rfl,rfl,rfl,Finset.Subset.refl _,rfl,rfl⟩,hflags⟩

theorem pageFlags_setFlags (s : UserPages n) (p flags q : Nat) :
    pageFlags (s.setFlags p flags).links q = if q = p then flags else pageFlags s.links q := by
  unfold pageFlags setFlags setLinks UserPages.links
  dsimp only
  rw [update_apply]
  split
  · rfl
  · rfl

structure SetsFlags (s next : UserPages n) (changed : Nat → Prop) (flags : Nat) : Prop extends
    Keeps s next where
  inside : ∀ p, changed p → pageFlags next.links p = flags
  outside : ∀ p, ¬ changed p → pageFlags next.links p = pageFlags s.links p

variable {flags : Nat}

theorem setsFlags_setPageFlags (h : s.setPageFlags cfg p flags = some next) :
    SetsFlags s next (· = p) flags := by
  simp only [UserPages.setPageFlags,map_eq_some_iff] at h
  obtain ⟨mid,hmid,rfl⟩ := h
  obtain ⟨hkeeps,hflags⟩ : Keeps s mid ∧ pageFlags mid.links = pageFlags s.links := by
    split at hmid
    · exact keeps_tbInvalidatePhysPage hmid
    · cases hmid
      exact ⟨Keeps.refl s,rfl⟩
  refine ⟨hkeeps.trans ⟨rfl,rfl,rfl,rfl,Finset.Subset.refl _,rfl,rfl⟩,fun q hq => ?_,fun q hq => ?_⟩
  · rw [pageFlags_setFlags,if_pos hq]
  · rw [pageFlags_setFlags,if_neg hq,hflags]

theorem setsFlags_setPagesFlags {count first : Nat}
    (h : UserPages.setPagesFlags cfg flags count first s = some next) :
    SetsFlags s next (fun p => first ≤ p ∧ p < first+count) flags := by
  induction count generalizing s first with
  | zero =>
    cases h
    refine ⟨Keeps.refl _,fun p hp => ?_,fun _ _ => rfl⟩
    omega
  | succ count ih =>
    simp only [UserPages.setPagesFlags,bind_eq_bind,bind_eq_some_iff] at h
    obtain ⟨mid,hmid,h⟩ := h
    have hfirst := setsFlags_setPageFlags hmid
    have hrest := ih h
    refine ⟨hfirst.toKeeps.trans hrest.toKeeps,fun p hp => ?_,fun p hp => ?_⟩
    · by_cases hp' : first+1 ≤ p ∧ p < first+1+count
      · exact hrest.inside p hp'
      · rw [hrest.outside p hp',hfirst.inside p (by omega)]
    · rw [hrest.outside p (by omega),hfirst.outside p (by omega)]

theorem lt_ceilDiv {size : Nat} (hpos : 0 < size) (i stop : Nat) :
    i < (stop+size-1) / size ↔ i*size < stop := by
  rw [Nat.lt_iff_add_one_le,Nat.le_div_iff_mul_le hpos,Nat.add_mul]
  omega

def InPages (cfg : Config) (start stop p : Nat) : Prop :=
  start/cfg.targetPageSize ≤ p ∧ p*cfg.targetPageSize < stop

theorem inPages_iff (cfg : Config) (start stop p : Nat) : InPages cfg start stop p ↔
    start/cfg.targetPageSize ≤ p ∧ p < start/cfg.targetPageSize +
      ((stop+cfg.targetPageSize-1) / cfg.targetPageSize - start/cfg.targetPageSize) := by
  have hlast := lt_ceilDiv (targetPageSize_pos cfg) p stop
  rw [InPages,← hlast]
  omega

theorem setsFlags_pageSetFlags {start stop : Nat}
    (h : s.pageSetFlags cfg start stop flags = some next) :
    SetsFlags s next (InPages cfg start stop) (storedFlags flags) := by
  unfold UserPages.pageSetFlags at h
  split at h
  · cases h
  · rw [funext fun p => propext (inPages_iff cfg start stop p)]
    exact setsFlags_setPagesFlags h

theorem storedFlags_write (flags : Nat) :
    storedFlags flags &&& pageWrite ≠ 0 ↔ flags &&& pageWrite ≠ 0 := by
  unfold storedFlags
  split
  · rfl
  have hor : (flags ||| pageWriteOrg) &&& pageWrite = flags &&& pageWrite := by
    rw [Nat.and_or_distrib_right]
    exact Nat.or_zero _
  rw [hor]

end UserPages

end Hqemu.Exec
