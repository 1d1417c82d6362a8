import Hqemu.Exec.Calls

/-! The generations of blocks, which flushes begin. Lookups but those in the IBTC lead to blocks of
the present one. -/
namespace Hqemu.Exec.Store

open Function Option World Lib.Chain

variable {n : Nat} {cfg : Config} {w next : World n}

/-- The block was translated after the most recent flush. -/
def Current (w : World n) (tb : TbId) : Prop :=
  (w.desc tb).version = some w.tbFlushVersion

instance (w : World n) : DecidablePred (Current w) :=
  fun tb => inferInstanceAs (Decidable ((w.desc tb).version = some w.tbFlushVersion))

structure Clean (w : World n) : Prop where
  bound : ∀ tb version, (w.desc tb).version = some version → version ≤ w.tbFlushVersion
  index : ∀ tb, Current w tb → tb < w.nbTbs
  opt : ∀ tb, Current w tb → (w.desc tb).optVersion = some w.tbFlushVersion
  bucket : ∀ h tb, w.links.hash (.bucket h) = some tb → Current w tb
  next : ∀ tb, Current w tb → ∀ other, w.links.hash (.next tb) = some other → Current w other
  cache : ∀ c h tb, (w.cpus c).tbJmpCache h = some tb → Current w tb

theorem clean_emptyWorld (n : Nat) : Clean (emptyWorld n) := by
  refine ⟨nofun,nofun,nofun,nofun,nofun,nofun⟩

structure SameBlocks (w next : World n) : Prop where
  tbFlushVersion : next.tbFlushVersion = w.tbFlushVersion
  nbTbs : next.nbTbs = w.nbTbs
  version : ∀ tb, (next.desc tb).version = (w.desc tb).version
  optVersion : ∀ tb, (next.desc tb).optVersion = (w.desc tb).optVersion ∨
    (next.desc tb).optVersion = some w.tbFlushVersion
  hash : next.links.hash = w.links.hash

theorem SameBlocks.current (h : SameBlocks w next) (tb : TbId) :
    Current next tb ↔ Current w tb := by
  unfold Current
  rw [h.version,h.tbFlushVersion]

theorem SameBlocks.trans {last : World n} (h : SameBlocks w next)
    (hlast : SameBlocks next last) : SameBlocks w last where
  tbFlushVersion := hlast.tbFlushVersion.trans h.tbFlushVersion
  nbTbs := hlast.nbTbs.trans h.nbTbs
  version tb := (hlast.version tb).trans (h.version tb)
  optVersion tb := by
    rcases hlast.optVersion tb with hsame | hnew
    · rw [hsame]
      exact h.optVersion tb
    · exact .inr (hnew.trans (by rw [h.tbFlushVersion]))
  hash := hlast.hash.trans h.hash

theorem Clean.of_sameBlocks (hclean : Clean w) (h : SameBlocks w next)
    (hcache : ∀ c hash tb, (next.cpus c).tbJmpCache hash = some tb → Current w tb) :
    Clean next where
  bound tb version hver := by
    rw [h.version] at hver
    rw [h.tbFlushVersion]
    exact hclean.bound tb version hver
  index tb htb := by
    rw [h.current] at htb
    rw [h.nbTbs]
    exact hclean.index tb htb
  opt tb htb := by
    rw [h.current] at htb
    rw [h.tbFlushVersion]
    rcases h.optVersion tb with hsame | hnew
    · rw [hsame]
      exact hclean.opt tb htb
    · exact hnew
  bucket hash tb htb := by
    rw [h.hash] at htb
    rw [h.current]
    exact hclean.bucket hash tb htb
  next tb htb other hother := by
    rw [h.hash] at hother
    rw [h.current] at htb ⊢
    exact hclean.next tb htb other hother
  cache c hash tb htb := (h.current tb).mpr (hcache c hash tb htb)

theorem sameBlocks_updateCpu (w : World n) (c : Fin n) (f : Cpu → Cpu) :
    SameBlocks w (w.updateCpu c f) :=
  ⟨rfl,rfl,fun _ => rfl,fun _ => .inl rfl,rfl⟩

theorem Clean.updateCpu (hclean : Clean w) (c : Fin n) (f : Cpu → Cpu)
    (hcache : ∀ hash tb, (f (w.cpus c)).tbJmpCache hash = some tb → Current w tb) :
    Clean (w.updateCpu c f) := by
  apply hclean.of_sameBlocks (sameBlocks_updateCpu w c f)
  intro d hash tb htb
  by_cases hd : d = c
  · subst hd
    rw [updateCpu_cpus,update_self] at htb
    exact hcache hash tb htb
  · rw [updateCpu_cpus,update_of_ne hd] at htb
    exact hclean.cache d hash tb htb

theorem Clean.runGuest (hclean : Clean w) (c : Fin n) (state : TbCpuState) :
    Clean (w.runGuest c state) :=
  hclean.updateCpu c _ (hclean.cache c)

theorem sameBlocks_startProfileIfCold (w : World n) (tb : TbId) :
    SameBlocks w (w.startProfileIfCold tb) := by
  refine ⟨by simp,by simp,fun x => ?_,fun x => .inl ?_,by simp⟩
  all_goals
    rcases startProfileIfCold_desc w tb x with ⟨mode,entry,hdesc⟩
    rw [hdesc]

theorem Clean.startProfileIfCold (hclean : Clean w) (tb : TbId) :
    Clean (w.startProfileIfCold tb) := by
  apply hclean.of_sameBlocks (sameBlocks_startProfileIfCold w tb)
  intro c hash x hx
  rw [(startProfileIfCold_same ..).2.1] at hx
  exact hclean.cache c hash x hx

theorem Clean.setFlag (hclean : Clean w) (flag : Bool) : Clean { w with tbInvalidatedFlag := flag
    } :=
  ⟨hclean.bound,hclean.index,hclean.opt,hclean.bucket,hclean.next,hclean.cache⟩

theorem Clean.tbFlush {c : Fin n} (hclean : Clean w) (h : w.tbFlush cfg c = some next) :
    Clean next := by
  unfold World.tbFlush at h
  split at h
  · cases h
  cases h
  have hold : ∀ tb, (w.desc tb).version ≠ some (w.tbFlushVersion+1) := by
    intro tb hver
    have hbound := hclean.bound tb _ hver
    omega
  refine ⟨?_,?_,?_,?_,?_,?_⟩
  · intro tb version hver
    have hbound := hclean.bound tb version hver
    exact Nat.le_succ_of_le hbound
  · intro tb htb
    exact absurd htb (hold tb)
  · intro tb htb
    exact absurd htb (hold tb)
  · intro hash tb htb
    cases htb
  · intro tb htb
    exact absurd htb (hold tb)
  · intro d hash tb htb
    cases htb

theorem Clean.allocBase {c : Fin n} {base : World n} (hclean : Clean w)
    (h : AllocBase cfg w c base) : Clean base := by
  rcases h with ⟨-,rfl⟩ | ⟨-,hflush⟩
  · exact hclean
  · exact hclean.tbFlush hflush

section Translation

variable {base : World n} {state : TbCpuState} {found : Option TbId}

theorem translated_current (h : Translated cfg base state next found) {tb : TbId}
    (htb : Current base tb) : Current next tb := by
  unfold Current at htb ⊢
  rw [h.tbFlushVersion]
  by_cases hslot : tb = base.nbTbs
  · subst hslot
    cases found with
    | none => rw [(h.faulted rfl).2.1,htb]
    | some new =>
      have hlink := h.linked new rfl
      rw [← hlink.1]
      exact hlink.2.2.1
  · rw [h.desc tb hslot,htb]

theorem translated_found {tb : TbId} (h : Translated cfg base state next (some tb)) :
    Current next tb := by
  unfold Current
  rw [(h.linked tb rfl).2.2.1,h.tbFlushVersion]

theorem translated_bound (hclean : Clean base) (h : Translated cfg base state next found)
    (tb : TbId) (version : Nat) (hver : (next.desc tb).version = some version) :
    version ≤ base.tbFlushVersion := by
  by_cases hslot : tb = base.nbTbs
  · subst hslot
    cases found with
    | none =>
      rw [(h.faulted rfl).2.1] at hver
      exact hclean.bound _ version hver
    | some new =>
      have hlink := h.linked new rfl
      rw [← hlink.1,hlink.2.2.1] at hver
      exact Nat.le_of_eq (some.inj hver).symm
  · rw [h.desc tb hslot] at hver
    exact hclean.bound tb version hver

theorem current_of_translated (h : Translated cfg base state next found) {tb : TbId}
    (hslot : tb ≠ base.nbTbs) (htb : Current next tb) : Current base tb := by
  unfold Current at htb ⊢
  rwa [h.desc tb hslot,h.tbFlushVersion] at htb

section

variable (hclean : Clean base) (h : Translated cfg base state next found)
include hclean h

theorem translated_opt (tb : TbId)
    (htb : Current next tb) : (next.desc tb).optVersion = some base.tbFlushVersion := by
  by_cases hslot : tb = base.nbTbs
  · rw [hslot]
    exact h.optVersion
  · rw [h.desc tb hslot]
    exact hclean.opt tb (current_of_translated h hslot htb)

theorem translated_hash :
    (∀ hash tb, next.links.hash (.bucket hash) = some tb → Current next tb) ∧
      ∀ tb, Current next tb → ∀ other, next.links.hash (.next tb) = some other →
        Current next other := by
  cases found with
  | none =>
    have hfaulted := h.faulted rfl
    have hback : ∀ tb, Current next tb → Current base tb := by
      intro tb htb
      by_cases hslot : tb = base.nbTbs
      · subst hslot
        unfold Current at htb ⊢
        rwa [h.tbFlushVersion,hfaulted.2.1] at htb
      · exact current_of_translated h hslot htb
    rw [hfaulted.1]
    refine ⟨fun hash tb htb => ?_,fun tb htb other hother => ?_⟩
    · exact translated_current h (hclean.bucket hash tb htb)
    · exact translated_current h (hclean.next tb (hback tb htb) other hother)
  | some new =>
    obtain ⟨hnew,-,-,physPage2,hlinks⟩ := h.linked new rfl
    rw [hlinks,Links.tbLinkPage_hash]
    refine ⟨fun hash tb htb => ?_,fun tb htb other hother => ?_⟩
    · simp only [update_apply,HashLoc.bucket.injEq,reduceCtorEq,↓reduceIte] at htb
      split at htb
      · cases htb
        exact translated_found h
      · exact translated_current h (hclean.bucket hash tb htb)
    · simp only [update_apply,HashLoc.next.injEq,reduceCtorEq,↓reduceIte] at hother
      split at hother
      · exact translated_current h (hclean.bucket _ other hother)
      · rename_i hne
        have hbase : Current base tb := current_of_translated h (hnew ▸ hne) htb
        exact translated_current h (hclean.next tb hbase other hother)

theorem Clean.translated :
    Clean next where
  bound tb version hver := by
    rw [h.tbFlushVersion]
    exact translated_bound hclean h tb version hver
  index tb htb := by
    rw [h.nbTbs]
    by_cases hslot : tb = base.nbTbs
    · rw [hslot]
      exact Nat.lt_succ_self _
    · exact Nat.lt_succ_of_lt (hclean.index tb (current_of_translated h hslot htb))
  opt tb htb := by
    rw [h.tbFlushVersion]
    exact translated_opt hclean h tb htb
  bucket := (translated_hash hclean h).1
  next := (translated_hash hclean h).2
  cache c hash tb htb := by
    rw [h.cpus] at htb
    exact translated_current h (hclean.cache c hash tb htb)

end

end Translation

theorem Clean.setTbJmpCache (hclean : Clean w) (c : Fin n) (pc : Nat) {tb : TbId}
    (htb : Current w tb) : Clean (w.setTbJmpCache cfg c pc tb) := by
  apply hclean.updateCpu
  intro hash other hother
  simp only [update_apply] at hother
  split at hother
  · cases hother
    exact htb
  · exact hclean.cache c hash other hother

theorem Clean.findFast {c : Fin n} {found : Option TbId} (hclean : Clean w)
    (h : FindFast cfg w c next found) : Clean next ∧ ∀ tb, found = some tb → Current next tb := by
  cases h with
  | cached tb hhit =>
    refine ⟨hclean.startProfileIfCold tb,fun x hx => ?_⟩
    cases hx
    rw [(sameBlocks_startProfileIfCold w tb).current]
    simp only [tbJmpCacheHit,filter_eq_some_iff] at hhit
    exact hclean.cache c _ tb hhit.1
  | hashed tb hfound =>
    have hcur : Current w tb := (search_some (Current w) (hclean.bucket _) hclean.next hfound).1
    have hprof := (hclean.setFlag false).startProfileIfCold tb
    have hafter := sameBlocks_startProfileIfCold { w with tbInvalidatedFlag := false } tb
    refine ⟨hprof.setTbJmpCache c _ ((hafter.current tb).mpr hcur),fun x hx => ?_⟩
    cases hx
    exact (hafter.current tb).mpr hcur
  | translated base mid tb hmiss hbase hmid =>
    have hstart : Clean base := (hclean.setFlag false).allocBase hbase
    have hcur : Current mid tb := translated_found hmid
    refine ⟨(hstart.translated hmid).setTbJmpCache c _ hcur,fun x hx => ?_⟩
    cases hx
    exact hcur
  | faulted base mid hmiss hbase hmid =>
    have hstart : Clean base := (hclean.setFlag false).allocBase hbase
    exact ⟨hstart.translated hmid,fun x hx => absurd hx (by simp)⟩

theorem Clean.physInvalidate {tb : TbId} {pageAddr : Option Nat} (hclean : Clean w)
    (h : w.tbPhysInvalidate cfg tb pageAddr = some next) : Clean next := by
  obtain ⟨ptb,links,hpage,hunchains,rfl⟩ := tbPhysInvalidate_some h
  have hhash : ∀ loc, links.hash loc =
      if loc = ptb then w.links.hash (.next tb) else w.links.hash loc := by
    intro loc
    rw [hunchains.hash]
    exact update_apply _ _ _ _
  refine ⟨hclean.bound,hclean.index,hclean.opt,fun hash other hother => ?_,
    fun block hblock other hother => ?_,fun c hash other hother => ?_⟩
  · change links.hash (.bucket hash) = some other at hother
    rw [hhash] at hother
    split at hother
    · rename_i heq
      exact hclean.next tb (hclean.bucket hash tb (heq ▸ hpage)) other hother
    · exact hclean.bucket hash other hother
  · change links.hash (.next block) = some other at hother
    rw [hhash] at hother
    split at hother
    · rename_i heq
      exact hclean.next tb (hclean.next block hblock tb (heq ▸ hpage)) other hother
    · exact hclean.next block hblock other hother
  · dsimp only at hother
    split at hother
    · simp only [update_apply] at hother
      split at hother
      · cases hother
      · exact hclean.cache c hash other hother
    · exact hclean.cache c hash other hother

theorem sameBlocks_chainNext {nextTb : NextTb} {tb : TbId}
    (h : w.chainNext nextTb tb = some next) : SameBlocks w next := by
  have hnext := chainNext_some h
  have hprof := sameBlocks_startProfileIfCold w tb
  refine ⟨hnext.2.2.1,hnext.2.2.2.1,fun x => ?_,fun x => ?_,hnext.2.1⟩
  · rcases hnext.2.2.2.2.2 with hdesc | hdesc
    · rw [hdesc]
    · rw [hdesc]
      exact hprof.version x
  · rcases hnext.2.2.2.2.2 with hdesc | hdesc
    · exact .inl (by rw [hdesc])
    · rw [hdesc]
      exact hprof.optVersion x

theorem Clean.chainNext {nextTb : NextTb} {tb : TbId} (hclean : Clean w)
    (h : w.chainNext nextTb tb = some next) : Clean next := by
  apply hclean.of_sameBlocks (sameBlocks_chainNext h)
  intro c hash x hx
  rw [(chainNext_some h).1] at hx
  exact hclean.cache c hash x hx

theorem sameBlocks_finishTrace (w : World n) (entryTb : TbId) (code cacheVersion : Nat) :
    SameBlocks w (w.finishTrace entryTb code cacheVersion) := by
  obtain ⟨-,hlinks,hver,hnbTbs,-⟩ := finishTrace_same w entryTb code cacheVersion
  refine ⟨hver,hnbTbs,fun x => ?_,fun x => ?_,by rw [hlinks]⟩
  · rcases finishTrace_desc w entryTb code cacheVersion x with hdesc | ⟨-,hdesc⟩
    · rw [hdesc]
    · rw [hdesc]
  · rcases finishTrace_desc w entryTb code cacheVersion x with hdesc | ⟨-,hdesc⟩
    · exact .inl (by rw [hdesc])
    · exact .inr (by rw [hdesc])

theorem Clean.finishTrace (hclean : Clean w) (entryTb : TbId) (code cacheVersion : Nat) :
    Clean (w.finishTrace entryTb code cacheVersion) := by
  apply hclean.of_sameBlocks (sameBlocks_finishTrace w entryTb code cacheVersion)
  intro c hash x hx
  rw [(finishTrace_same ..).1] at hx
  exact hclean.cache c hash x hx

theorem sameBlocks_emitExit (w : World n) (addr : Nat) (state : TbCpuState) :
    SameBlocks w (w.emitExit addr state) :=
  ⟨rfl,rfl,fun _ => rfl,fun _ => .inl rfl,rfl⟩

theorem sameBlocks_requestFlush (w : World n) : SameBlocks w w.requestFlush :=
  ⟨rfl,rfl,fun _ => rfl,fun _ => .inl rfl,rfl⟩

theorem Clean.emitExit (hclean : Clean w) (addr : Nat) (state : TbCpuState) :
    Clean (w.emitExit addr state) :=
  hclean.of_sameBlocks (sameBlocks_emitExit w addr state) hclean.cache

theorem sameBlocks_updateIbtcEntry (w : World n) (c : Fin n) (tb : TbId) :
    SameBlocks w (w.updateIbtcEntry c tb) := by
  refine SameBlocks.trans ?_ (sameBlocks_startProfileIfCold _ tb)
  refine SameBlocks.trans ?_ (sameBlocks_updateCpu _ c _)
  split
  · exact sameBlocks_updateCpu w c _
  · exact ⟨rfl,rfl,fun _ => rfl,fun _ => .inl rfl,rfl⟩

theorem Clean.updateIbtcEntry (hclean : Clean w) (c : Fin n) (tb : TbId) :
    Clean (w.updateIbtcEntry c tb) := by
  apply hclean.of_sameBlocks (sameBlocks_updateIbtcEntry w c tb)
  intro d hash x hx
  rw [updateIbtcEntry_tbJmpCache] at hx
  exact hclean.cache d hash x hx

theorem Clean.lookupIbtc (hclean : Clean w) (c : Fin n) (eip : Nat) :
    Clean (w.helperLookupIbtc cfg c eip).1 := by
  rcases helperLookupIbtc_world cfg w c eip with hsame | hmiss
  · rw [hsame]
    exact hclean
  · rw [hmiss]
    exact hclean.updateCpu c _ (hclean.cache c)

theorem Clean.step {call : Call n} (hclean : Clean w) (h : w.step cfg call = some next) :
    Clean next := by
  cases call with
  | runGuest c state =>
    cases h
    exact hclean.runGuest c state
  | findFast c gen =>
    obtain ⟨found,h⟩ := exists_of_map_fst h
    exact (hclean.findFast (tbFindFast_some h)).1
  | genCode c state cflags gen =>
    obtain ⟨found,h⟩ := exists_of_map_fst h
    obtain ⟨base,hbase,hnext⟩ := tbGenCode_some h
    exact (hclean.allocBase hbase).translated hnext
  | lookupIbtc c eip =>
    cases (ite_none_left_eq_some.mp h).2
    exact hclean.lookupIbtc c eip
  | updateIbtc c tb =>
    cases h
    exact hclean.updateIbtcEntry c tb
  | physInvalidate tb pageAddr => exact hclean.physInvalidate h
  | flush c => exact hclean.tbFlush h
  | requestFlush =>
    cases h
    exact hclean.of_sameBlocks (sameBlocks_requestFlush w) hclean.cache
  | emitExit addr state =>
    cases (ite_none_right_eq_some.mp h).2
    exact hclean.emitExit addr state
  | finishTrace entryTb code cacheVersion =>
    cases h
    exact hclean.finishTrace entryTb code cacheVersion
  | leaveRegion c addr gen =>
    simp only [World.step,leaveRegion,bind_eq_bind,bind_eq_some_iff,Prod.exists] at h
    obtain ⟨exit,-,mid,found,hfind,h⟩ := h
    have hmid : Clean mid := ((hclean.runGuest c exit.state).findFast (tbFindFast_some hfind)).1
    cases found with
    | none =>
      cases h
      exact hmid
    | some tb => exact hmid.chainNext h

end Hqemu.Exec.Store
