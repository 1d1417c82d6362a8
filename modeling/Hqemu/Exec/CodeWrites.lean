import Hqemu.Exec.PageBitmap
import Hqemu.Exec.PageLists

/-! Guest writes to pages with code, in system emulation. -/
namespace Hqemu.Exec

open Function List Option Lib.Chain Lib.Run Lib.Bitmap Links Exec.Graph

def getPageAddrCode (cfg : Config) (mmu : Nat → Nat) (addr : Nat) : Nat :=
  mmu (pageIndex cfg addr) * cfg.targetPageSize + pageOffset cfg addr

structure Source where
  pc : Nat
  size : Nat
  mmu : Nat → Nat

def Source.addr (cfg : Config) (source : Source) (k : Nat) : Nat :=
  getPageAddrCode cfg source.mmu (source.pc+k)

def l2Bits : Nat := 10

/-- The block store of system emulation with its page descriptors. `live` has the blocks linked and
not invalidated, and `source` what they were translated from; no function reads them. -/
structure CodePages (n : Nat) where
  world : World n
  l1Map : Nat → Bool
  live : Finset TbId
  source : TbId → Source

namespace CodePages

variable {n : Nat}

def initial (n : Nat) : CodePages n where
  world := emptyWorld n
  l1Map _ := false
  live := ∅
  source _ := ⟨0,0,id⟩

def pageFind (s : CodePages n) (page : Nat) : Bool := s.l1Map (page >>> l2Bits)

def pageFindAlloc (l1Map : Nat → Bool) (page : Nat) : Nat → Bool :=
  Function.update l1Map (page >>> l2Bits) true

def physInvalidate (cfg : Config) (s : CodePages n) (tb : TbId) : Option (CodePages n) :=
  (s.world.tbPhysInvalidate cfg tb none).map fun w =>
    { s with world := w, live := s.live.erase tb }

def codeRange (cfg : Config) (desc : TbDesc) (m : Slot) (pageAddr : Nat) : Nat × Nat :=
  if m = 0 then
    let tbStart := pageAddr + pageOffset cfg desc.pc
    (tbStart,tbStart+desc.size)
  else (pageAddr,pageAddr + pageOffset cfg (desc.pc+desc.size))

def invalidateRange (cfg : Config) (start stop : Nat) :
    Nat → CodePages n → Option (TbId × Slot) → Option (CodePages n)
  | 0, _, _ => none
  | _+1, s, none => some s
  | limit+1, s, some node => do
      let tbNext := s.world.links.page (pageCell node)
      let pageAddr ← s.world.links.pageAddr node
      let (tbStart,tbEnd) := codeRange cfg (s.world.desc node.1) node.2 pageAddr
      if tbEnd ≤ start ∨ stop ≤ tbStart then invalidateRange cfg start stop limit s tbNext
      else
        let s ← s.physInvalidate cfg node.1
        invalidateRange cfg start stop limit s tbNext

def dropEmpty (s : CodePages n) (page : Nat) : CodePages n :=
  match s.world.links.page (.firstTb page) with
  | some _ => s
  | none =>
    { s with world := { s.world with links := s.world.links.invalidatePageBitmap page } }

def tbInvalidatePhysPageRange (cfg : Config) (s : CodePages n) (start stop : Nat)
    (isCpuWriteAccess : Bool) : Option (CodePages n) :=
  let page := pageIndex cfg start
  if s.pageFind page then do
    let w ← s.world.countWrite cfg page isCpuWriteAccess
    let s ← invalidateRange cfg start stop cfg.walkLimit { s with world := w }
      (w.links.page (.firstTb page))
    return s.dropEmpty page
  else some s

def ignores (cfg : Config) (s : CodePages n) (start len : Nat) : Bool :=
  let page := pageIndex cfg start
  !s.pageFind page ||
    match (s.world.links.pageDesc page).codeBitmap with
    | none => false
    | some tab =>
      let offset := pageOffset cfg start
      let b := (tab.getD (offset/8) 0).toNat >>> (offset%8)
      b &&& ((1 <<< len) - 1) == 0

def tbInvalidatePhysPageFast (cfg : Config) (s : CodePages n) (start len : Nat) :
    Option (CodePages n) :=
  if s.ignores cfg start len then some s
  else s.tbInvalidatePhysPageRange cfg start (start+len) true

/-- The calls of `notdirty_mem_write` for a guest store: an unaligned one goes byte by byte, from
the last on, and one of eight bytes as two of four. -/
def storePieces (start size : Nat) : List (Nat × Nat) :=
  if start % size ≠ 0 then ((List.range size).map fun i => (start+i,1)).reverse
  else if size = 8 then [(start,4),(start+4,4)]
  else [(start,size)]

def physPage2 (cfg : Config) (mmu : Nat → Nat) (pc size : Nat) : Option Nat :=
  let virtPage2 := pageAlign cfg (pc+size-1)
  if pageAlign cfg pc ≠ virtPage2 then some (getPageAddrCode cfg mmu virtPage2) else none

def linkTb (cfg : Config) (s : CodePages n) (tb : TbId) (mmu : Nat → Nat) (pc : Nat)
    (gen : GenCode) : CodePages n :=
  let w := s.world.updateDesc tb fun desc =>
    { desc with
      size := gen.size
      nextOffset := gen.nextOffset
      jmpEntry := .predictStub
      version := some s.world.tbFlushVersion }
  let ptr := (w.codeGenPtr+gen.codeGenSize+codeGenAlign-1) / codeGenAlign
  let physPc := getPageAddrCode cfg mmu pc
  let page2 := physPage2 cfg mmu pc gen.size
  { world := { w with
      codeGenPtr := ptr*codeGenAlign
      links := w.links.tbLinkPage cfg tb gen.nextOffset physPc page2 }
    l1Map := (page2.toList.map (pageIndex cfg)).foldl pageFindAlloc
      (pageFindAlloc s.l1Map (pageIndex cfg physPc))
    live := insert tb s.live
    source := Function.update s.source tb ⟨pc,gen.size,mmu⟩ }

def tbGenCode (cfg : Config) (s : CodePages n) (c : Fin n) (mmu : Nat → Nat)
    (state : TbCpuState) (cflags : Nat) (gen : Option GenCode) :
    Option (CodePages n × Option TbId) := do
  let (w,tb) ← s.world.tbAllocFlushing cfg c state.pc
  let live := if s.world.tbAllocRefused cfg then ∅ else s.live
  let s := { s with world := w.openTb tb state cflags, live := live }
  match gen with
  | none => return (s,none)
  | some gen => return (s.linkTb cfg tb mmu state.pc gen,some tb)

def tbFree (s : CodePages n) (tb : TbId) : CodePages n :=
  if s.world.nbTbs = tb + 1 then
    let ptr := match (s.world.desc tb).tcPtr with
      | .block offset => offset
      | .region _ => s.world.codeGenPtr
    { s with world := { s.world with nbTbs := tb, codeGenPtr := ptr } }
  else s

def cpuExecNocache (cfg : Config) (s : CodePages n) (c : Fin n) (mmu : Nat → Nat)
    (state : TbCpuState) (cflags : Nat) (gen : Option GenCode) : Option (CodePages n) := do
  let (s,found) ← s.tbGenCode cfg c mmu state cflags gen
  match found with
  | none => return s
  | some tb =>
    let s ← s.physInvalidate cfg tb
    return s.tbFree tb

inductive Action (n : Nat) where
  | genCode (c : Fin n) (mmu : Nat → Nat) (state : TbCpuState) (cflags : Nat)
      (gen : Option GenCode)
  | execNocache (c : Fin n) (mmu : Nat → Nat) (state : TbCpuState) (cflags : Nat)
      (gen : Option GenCode)
  | physInvalidate (tb : TbId)
  | invalidateRange (start stop : Nat) (isCpuWriteAccess : Bool)
  | store (start : Nat) (shift : Fin 4)
  | flush (c : Fin n)

def step (cfg : Config) (s : CodePages n) : Action n → Option (CodePages n)
  | .genCode c mmu state cflags gen => (s.tbGenCode cfg c mmu state cflags gen).map Prod.fst
  | .execNocache c mmu state cflags gen => s.cpuExecNocache cfg c mmu state cflags gen
  | .physInvalidate tb => s.physInvalidate cfg tb
  | .invalidateRange start stop isCpuWriteAccess =>
    s.tbInvalidatePhysPageRange cfg start stop isCpuWriteAccess
  | .store start shift =>
    if pageOffset cfg start + 1 <<< shift.val ≤ cfg.targetPageSize then
      (storePieces start (1 <<< shift.val)).foldlM
        (fun s piece => s.tbInvalidatePhysPageFast cfg piece.1 piece.2) s
    else none
  | .flush c => (s.world.tbFlush cfg c).map fun w => { s with world := w, live := ∅ }

variable {cfg : Config} {s next : CodePages n} {page : Nat → List (TbId × Slot)} {tb : TbId}

theorem pageIndex_getPageAddrCode (cfg : Config) (mmu : Nat → Nat) (addr : Nat) :
    pageIndex cfg (getPageAddrCode cfg mmu addr) = mmu (pageIndex cfg addr) := by
  have hpos := targetPageSize_pos cfg
  unfold getPageAddrCode pageOffset
  rw [pageIndex,Nat.mul_comm,Nat.mul_add_div hpos,Nat.div_eq_of_lt (Nat.mod_lt _ hpos),Nat.add_zero]

theorem pageOffset_getPageAddrCode (cfg : Config) (mmu : Nat → Nat) (addr : Nat) :
    pageOffset cfg (getPageAddrCode cfg mmu addr) = pageOffset cfg addr := by
  unfold getPageAddrCode pageOffset
  rw [Nat.mul_comm,Nat.mul_add_mod,Nat.mod_mod]

variable {k : Nat}

theorem page_of_lt {pc : Nat} (h : pageOffset cfg pc + k < cfg.targetPageSize) :
    pageIndex cfg (pc+k) = pageIndex cfg pc ∧ pageOffset cfg (pc+k) = pageOffset cfg pc + k := by
  have hpos := targetPageSize_pos cfg
  have hsplit : pc+k = cfg.targetPageSize*(pc/cfg.targetPageSize) + (pc%cfg.targetPageSize+k) := by
    rw [← Nat.add_assoc,Nat.div_add_mod]
  unfold pageIndex pageOffset at *
  rw [hsplit,Nat.mul_add_div hpos,Nat.mul_add_mod,Nat.div_eq_of_lt h,Nat.mod_eq_of_lt h]
  exact ⟨rfl,rfl⟩

theorem page_of_ge {pc : Nat} (hge : cfg.targetPageSize ≤ pageOffset cfg pc + k)
    (hlt : pageOffset cfg pc + k < 2*cfg.targetPageSize) :
    pageIndex cfg (pc+k) = pageIndex cfg pc + 1 ∧
      pageOffset cfg (pc+k) = pageOffset cfg pc + k - cfg.targetPageSize := by
  have hpos := targetPageSize_pos cfg
  have hsplit : pc+k = cfg.targetPageSize*(pc/cfg.targetPageSize+1) +
      (pc%cfg.targetPageSize+k-cfg.targetPageSize) := by
    have hpc := Nat.div_add_mod pc cfg.targetPageSize
    unfold pageOffset at hge
    rw [Nat.mul_add,Nat.mul_one]
    omega
  have hrest : pc%cfg.targetPageSize+k-cfg.targetPageSize < cfg.targetPageSize := by
    unfold pageOffset at hge hlt
    omega
  unfold pageIndex pageOffset at *
  rw [hsplit,Nat.mul_add_div hpos,Nat.mul_add_mod,Nat.div_eq_of_lt hrest,Nat.mod_eq_of_lt hrest]
  exact ⟨rfl,rfl⟩

structure Placed (cfg : Config) (w : World n) (source : Source) (tb : TbId) : Prop where
  pc : (w.desc tb).pc = source.pc
  size : (w.desc tb).size = source.size
  first : nodePage cfg w.links (tb,0) = some (source.mmu (pageIndex cfg source.pc))
  second : pageIndex cfg source.pc ≠ pageIndex cfg (source.pc+source.size-1) →
    nodePage cfg w.links (tb,1) =
      some (source.mmu (pageIndex cfg (source.pc+source.size-1)))
  fits : pageOffset cfg source.pc + source.size < 2*cfg.targetPageSize

variable {w : World n}

theorem Placed.congr {changed : World n} {source : Source} (h : Placed cfg w source tb)
    (hdesc : changed.desc tb = w.desc tb)
    (hpage : ∀ m, nodePage cfg changed.links (tb,m) = nodePage cfg w.links (tb,m)) :
    Placed cfg changed source tb where
  pc := by rw [hdesc,h.pc]
  size := by rw [hdesc,h.size]
  first := by rw [hpage,h.first]
  second hne := by rw [hpage,h.second hne]
  fits := h.fits

theorem Placed.covers {source : Source} (h : Placed cfg w source tb) (hk : k < source.size) :
    ∃ m, nodePage cfg w.links (tb,m) = some (pageIndex cfg (source.addr cfg k)) ∧
      (nodeRange cfg (w.desc tb) m).1 ≤ pageOffset cfg (source.addr cfg k) ∧
      pageOffset cfg (source.addr cfg k) < (nodeRange cfg (w.desc tb) m).2 := by
  have hfits := h.fits
  unfold Source.addr
  rw [pageIndex_getPageAddrCode,pageOffset_getPageAddrCode]
  by_cases hpage : pageOffset cfg source.pc + k < cfg.targetPageSize
  · obtain ⟨hindex,hoff⟩ := page_of_lt hpage
    refine ⟨0,?_,?_⟩
    · rw [hindex,h.first]
    · rw [nodeRange_zero,hoff,h.pc,h.size]
      omega
  · have hge : cfg.targetPageSize ≤ pageOffset cfg source.pc + k := Nat.not_lt.mp hpage
    obtain ⟨hindex,hoff⟩ := page_of_ge hge (by omega)
    have hsub : source.pc+source.size-1 = source.pc+(source.size-1) := by omega
    have hlast : pageIndex cfg (source.pc+source.size-1) = pageIndex cfg source.pc + 1 := by
      rw [hsub]
      exact (page_of_ge (by omega) (by omega)).1
    have hend : pageOffset cfg (source.pc+source.size) =
        pageOffset cfg source.pc + source.size - cfg.targetPageSize :=
      (page_of_ge (by omega) hfits).2
    refine ⟨1,?_,?_⟩
    · rw [h.second (by omega),hindex,hlast]
    · rw [nodeRange_one,hoff,h.pc,h.size,hend]
      omega

def Covered (cfg : Config) (w : World n) (nodes : List (TbId × Slot)) (tab : List UInt8) : Prop :=
  ∀ node ∈ nodes, ∀ i, (nodeRange cfg (w.desc node.1) node.2).1 ≤ i →
    i < (nodeRange cfg (w.desc node.1) node.2).2 → bitAt tab i = true

structure Inv (cfg : Config) (s : CodePages n) (page : Nat → List (TbId × Slot)) : Prop where
  pages : OnPages cfg s.world.links Set.univ s.live page
  bound : ∀ tb ∈ s.live, tb < s.world.nbTbs
  placed : ∀ tb ∈ s.live, Placed cfg s.world (s.source tb) tb
  found : ∀ p, page p ≠ [] → s.pageFind p = true
  bitmap : ∀ p tab, (s.world.links.pageDesc p).codeBitmap = some tab →
    Covered cfg s.world (page p) tab

theorem nodeRange_le (cfg : Config) (desc : TbDesc) (m : Slot) :
    (nodeRange cfg desc m).2 ≤ cfg.targetPageSize := by
  unfold nodeRange
  split
  · exact Nat.min_le_right _ _
  · exact Nat.le_of_lt (Nat.mod_lt _ (targetPageSize_pos cfg))

theorem inv_empty {l1Map : Nat → Bool} {source : TbId → Source}
    (hpage : ∀ p, w.links.page (.firstTb p) = none)
    (hbitmap : ∀ p, (w.links.pageDesc p).codeBitmap = none) :
    Inv cfg ⟨w,l1Map,∅,source⟩ fun _ => [] where
  pages := ⟨⟨fun p _ => hpage p,fun _ _ => nodup_nil,nofun,nofun⟩,by simp⟩
  bound := by simp
  placed := by simp
  found p hp := absurd rfl hp
  bitmap p tab htable := by
    rw [hbitmap] at htable
    cases htable

variable {start : Nat}

section

variable (h : Inv cfg s page)
include h

theorem Inv.shrink {page' : Nat → List (TbId × Slot)}
    (hpages : OnPages cfg next.world.links Set.univ next.live page')
    (hkeeps : KeepsPages s.world.links next.world.links)
    (hdesc : ∀ tb ∈ s.live, next.world.desc tb = s.world.desc tb)
    (hbound : ∀ tb ∈ next.live, tb < next.world.nbTbs) (hl1Map : next.l1Map = s.l1Map)
    (hlive : next.live ⊆ s.live) (hsource : next.source = s.source)
    (hsub : ∀ p node, node ∈ page' p → node ∈ page p) : Inv cfg next page' where
  pages := hpages
  bound := hbound
  placed tb htb := by
    rw [hsource]
    exact (h.placed tb (hlive htb)).congr (hdesc tb (hlive htb)) fun m => by rw [hkeeps.nodePage]
  found p hp := by
    obtain ⟨node,hnode⟩ := exists_mem_of_ne_nil _ hp
    unfold pageFind
    rw [hl1Map]
    exact h.found p (ne_nil_of_mem (hsub p node hnode))
  bitmap p tab htable node hnode := by
    have hold := hsub p node hnode
    rw [hdesc node.1 ((h.pages.mem p (Set.mem_univ _) node).mp hold).1]
    exact h.bitmap p tab (hkeeps.bitmap p tab htable) node hold

theorem Inv.physInvalidate (hnext : s.physInvalidate cfg tb = some next) :
    ∃ page', Inv cfg next page' := by
  simp only [CodePages.physInvalidate,map_eq_some_iff] at hnext
  obtain ⟨w,hw,rfl⟩ := hnext
  have hskip : ∀ addr, (none : Option Nat) = some addr → pageIndex cfg addr ∉ Set.univ := nofun
  have hkeeps := keepsPages_tbPhysInvalidate hw
  obtain ⟨hdesc,hnbTbs,page',hpages,hsub,-⟩ := h.pages.physInvalidate hskip hw
  have hbound : ∀ x ∈ s.live.erase tb, x < w.nbTbs := fun x hx =>
    hnbTbs ▸ h.bound x (Finset.mem_of_mem_erase hx)
  exact ⟨page',h.shrink hpages hkeeps (fun x _ => congrFun hdesc x) hbound rfl
    (Finset.erase_subset _ _) rfl hsub⟩

theorem Inv.dropEmpty (p : Nat) : Inv cfg (s.dropEmpty p) page := by
  unfold CodePages.dropEmpty
  split
  · exact h
  have hkeeps := keepsPages_invalidatePageBitmap s.world.links p
  refine h.shrink ⟨h.pages.lists,?_⟩ hkeeps (fun _ _ => rfl) h.bound rfl (Finset.Subset.refl _)
    rfl fun _ _ hnode => hnode
  exact h.pages.mem

theorem Inv.setPageDesc (p : Nat) (desc : PageDesc)
    (hbitmap : ∀ tab, desc.codeBitmap = some tab → Covered cfg s.world (page p) tab) :
    Inv cfg { s with world := s.world.setPageDesc p desc } page where
  pages := ⟨h.pages.lists,h.pages.mem⟩
  bound := h.bound
  placed tb htb := (h.placed tb htb).congr rfl fun _ => rfl
  found := h.found
  bitmap q tab htable := by
    by_cases hq : q = p
    · subst hq
      simp only [World.setPageDesc,update_self] at htable
      exact hbitmap tab htable
    · simp only [World.setPageDesc,update_of_ne hq] at htable
      exact h.bitmap q tab htable

theorem Inv.invalidateRange {stop limit : Nat} {node : Option (TbId × Slot)}
    (hnext : CodePages.invalidateRange cfg start stop limit s node = some next) :
    ∃ page', Inv cfg next page' := by
  induction limit generalizing s page node with
  | zero => simp [CodePages.invalidateRange] at hnext
  | succ limit ih =>
    cases node with
    | none =>
      cases hnext
      exact ⟨page,h⟩
    | some node =>
      simp only [CodePages.invalidateRange,bind_eq_bind,bind_eq_some_iff] at hnext
      obtain ⟨pageAddr,-,hnext⟩ := hnext
      split at hnext
      · exact ih h hnext
      rw [bind_eq_some_iff] at hnext
      obtain ⟨mid,hmid,hnext⟩ := hnext
      obtain ⟨page',h'⟩ := h.physInvalidate hmid
      exact ih h' hnext

end

section PageSize

variable (hbits : 3 ≤ cfg.targetPageBits)
include hbits

theorem eight_dvd : 8 ∣ cfg.targetPageSize := by
  rw [Config.targetPageSize,Nat.one_shiftLeft]
  exact Nat.pow_dvd_pow 2 hbits

theorem byte_lt {i : Nat} (hi : i < cfg.targetPageSize) : i/8 < cfg.targetPageSize/8 := by
  have hdvd := eight_dvd hbits
  omega

theorem Inv.countWrite {w : World n} {p : Nat} {isCpuWriteAccess : Bool} (h : Inv cfg s page)
    (hw : s.world.countWrite cfg p isCpuWriteAccess = some w) :
    Inv cfg { s with world := w } page := by
  unfold World.countWrite at hw
  dsimp only at hw
  split at hw
  · cases hw
    exact h
  · rename_i hnone
    rw [Bool.not_eq_true,isSome_eq_false_iff,isNone_iff_eq_none] at hnone
    have hcount := h.setPageDesc p { s.world.links.pageDesc p with
      codeWriteCount := ((s.world.links.pageDesc p).codeWriteCount + 1) % 2^32 }
      fun tab htable => absurd (hnone.symm.trans htable) nofun
    split at hw
    · simp only [World.buildPageBitmap,bind_eq_bind,bind_eq_some_iff] at hw
      obtain ⟨nodes,hnodes,hw⟩ := hw
      cases hw
      rw [collect_seg (h.pages.lists.seg p (Set.mem_univ _)) hnodes]
      apply hcount.setPageDesc
      intro tab htable node hnode i hlow hhi
      cases htable
      have hpage : i < cfg.targetPageSize := Nat.lt_of_lt_of_le hhi (nodeRange_le cfg _ node.2)
      rw [bitAt_foldl_addNode (by simpa using byte_lt hbits hpage)]
      exact .inr ⟨node,hnode,hlow,hhi⟩
    · cases hw
      exact hcount

theorem Inv.range {start stop : Nat} {isCpuWriteAccess : Bool} (h : Inv cfg s page)
    (hnext : s.tbInvalidatePhysPageRange cfg start stop isCpuWriteAccess = some next) :
    ∃ page', Inv cfg next page' := by
  simp only [tbInvalidatePhysPageRange] at hnext
  split at hnext
  · simp only [bind_eq_bind,bind_eq_some_iff] at hnext
    obtain ⟨w,hw,mid,hmid,hnext⟩ := hnext
    cases hnext
    obtain ⟨page',h'⟩ := (h.countWrite hbits hw).invalidateRange hmid
    exact ⟨page',h'.dropEmpty _⟩
  · cases hnext
    exact ⟨page,h⟩

theorem Inv.store {pieces : List (Nat × Nat)} (h : Inv cfg s page)
    (hnext : pieces.foldlM (fun s piece => s.tbInvalidatePhysPageFast cfg piece.1 piece.2) s =
      some next) : ∃ page', Inv cfg next page' := by
  induction pieces generalizing s page with
  | nil =>
    cases hnext
    exact ⟨page,h⟩
  | cons piece rest ih =>
    rw [foldlM_cons,bind_eq_bind,bind_eq_some_iff] at hnext
    obtain ⟨mid,hmid,hnext⟩ := hnext
    unfold tbInvalidatePhysPageFast at hmid
    split at hmid
    · cases hmid
      exact ih h hnext
    · obtain ⟨page',h'⟩ := h.range hbits hmid
      exact ih h' hnext

end PageSize

theorem Inv.flush {c : Fin n} (hflush : s.world.tbFlush cfg c = some w) :
    Inv cfg { s with world := w, live := ∅ } fun _ => [] := by
  unfold World.tbFlush at hflush
  split at hflush
  · cases hflush
  · cases hflush
    exact inv_empty (fun _ => rfl) fun _ => rfl

theorem Inv.congr (h : Inv cfg s page) (hlinks : next.world.links = s.world.links)
    (hdesc : ∀ tb ∈ s.live, next.world.desc tb = s.world.desc tb)
    (hbound : ∀ tb ∈ s.live, tb < next.world.nbTbs) (hl1Map : next.l1Map = s.l1Map)
    (hlive : next.live = s.live) (hsource : next.source = s.source) : Inv cfg next page :=
  h.shrink (hlinks ▸ hlive ▸ h.pages) (hlinks ▸ .refl _) hdesc (hlive ▸ hbound) hl1Map
    hlive.subset hsource fun _ _ hnode => hnode

theorem protectPage_codeBitmap (links : Links) (addr p : Nat) :
    ((links.protectPage cfg addr).pageDesc p).codeBitmap = (links.pageDesc p).codeBitmap := by
  unfold protectPage
  split
  · rfl
  dsimp only
  split
  · rfl
  · rfl

variable {p : Nat} {tab : List UInt8}

theorem tbAllocPage_bitmap {links : Links} {tb : TbId} {m : Slot} {addr : Nat}
    (h : ((links.tbAllocPage cfg tb m addr).pageDesc p).codeBitmap = some tab) :
    p ≠ pageIndex cfg addr ∧ (links.pageDesc p).codeBitmap = some tab := by
  simp only [tbAllocPage,protectPage_codeBitmap,invalidatePageBitmap,setPage] at h
  by_cases hp : p = pageIndex cfg addr
  · subst hp
    simp at h
  · rw [update_of_ne hp] at h
    exact ⟨hp,h⟩

theorem tbLinkPage_bitmap {links : Links} {tb : TbId} {nextOffset : Slot → Option Nat}
    {physPc : Nat} {physPage2 : Option Nat}
    (h : ((links.tbLinkPage cfg tb nextOffset physPc physPage2).pageDesc p).codeBitmap = some tab) :
    p ≠ pageIndex cfg physPc ∧ physPage2.map (pageIndex cfg) ≠ some p ∧
      (links.pageDesc p).codeBitmap = some tab := by
  cases physPage2 with
  | none =>
    have hdesc : (links.tbLinkPage cfg tb nextOffset physPc none).pageDesc =
        ((links.setHash (.next tb) (links.hash (.bucket (tbPhysHashFunc physPc)))
          |>.setHash (.bucket (tbPhysHashFunc physPc)) (some tb)).tbAllocPage cfg tb 0
            (pageAlign cfg physPc)).pageDesc := by
      unfold tbLinkPage
      dsimp only
      split <;> split <;> rfl
    rw [hdesc] at h
    obtain ⟨hne,htable⟩ := tbAllocPage_bitmap h
    rw [pageIndex_pageAlign] at hne
    exact ⟨hne,by simp,htable⟩
  | some page2 =>
    have hdesc : (links.tbLinkPage cfg tb nextOffset physPc (some page2)).pageDesc =
        (((links.setHash (.next tb) (links.hash (.bucket (tbPhysHashFunc physPc)))
          |>.setHash (.bucket (tbPhysHashFunc physPc)) (some tb)).tbAllocPage cfg tb 0
            (pageAlign cfg physPc)).tbAllocPage cfg tb 1 page2).pageDesc := by
      unfold tbLinkPage
      dsimp only
      split <;> split <;> rfl
    rw [hdesc] at h
    obtain ⟨hne2,h⟩ := tbAllocPage_bitmap h
    obtain ⟨hne,htable⟩ := tbAllocPage_bitmap h
    rw [pageIndex_pageAlign] at hne
    exact ⟨hne,by simpa [eq_comm] using hne2,htable⟩

theorem pageFindAlloc_eq_true (l1Map : Nat → Bool) (p q : Nat) :
    pageFindAlloc l1Map p (q >>> l2Bits) = true ↔
      q >>> l2Bits = p >>> l2Bits ∨ l1Map (q >>> l2Bits) = true := by
  unfold pageFindAlloc
  rw [update_apply]
  split
  · simp [*]
  · simp [*]

section Link

variable {mmu : Nat → Nat} {pc : Nat} {gen : GenCode}

theorem linkTb_links (s : CodePages n) : (s.linkTb cfg tb mmu pc gen).world.links =
    s.world.links.tbLinkPage cfg tb gen.nextOffset (getPageAddrCode cfg mmu pc)
      (physPage2 cfg mmu pc gen.size) := rfl

theorem linkTb_desc (s : CodePages n) {x : TbId} (hx : x ≠ tb) :
    (s.linkTb cfg tb mmu pc gen).world.desc x = s.world.desc x :=
  update_of_ne hx _ _

theorem linkTb_source (s : CodePages n) (x : TbId) : (s.linkTb cfg tb mmu pc gen).source x =
    if x = tb then ⟨pc,gen.size,mmu⟩ else s.source x :=
  update_apply _ _ _ _

theorem linkTb_pageFind (s : CodePages n) (p : Nat) :
    (s.linkTb cfg tb mmu pc gen).pageFind p = true ↔
      p >>> l2Bits = pageIndex cfg (getPageAddrCode cfg mmu pc) >>> l2Bits ∨
      (∃ q, (physPage2 cfg mmu pc gen.size).map (pageIndex cfg) = some q ∧
        p >>> l2Bits = q >>> l2Bits) ∨ s.pageFind p = true := by
  simp only [pageFind,CodePages.linkTb]
  cases physPage2 cfg mmu pc gen.size with
  | none => simp [pageFindAlloc_eq_true]
  | some page2 =>
    simp only [toList_some,map_cons,map_nil,foldl_cons,foldl_nil,
      pageFindAlloc_eq_true,map_some,some.injEq,exists_eq_left']
    tauto

theorem physPage2_of_ne {size : Nat} (h : pageIndex cfg pc ≠ pageIndex cfg (pc+size-1)) :
    (physPage2 cfg mmu pc size).map (pageIndex cfg) = some (mmu (pageIndex cfg (pc+size-1))) := by
  have halias : pageAlign cfg pc ≠ pageAlign cfg (pc+size-1) := by
    intro heq
    apply h
    rw [← pageIndex_pageAlign cfg pc,heq,pageIndex_pageAlign]
  rw [physPage2,if_pos halias,map_some,pageIndex_getPageAddrCode,pageIndex_pageAlign]

theorem placed_linkTb (hpc : (s.world.desc tb).pc = pc)
    (hfits : pageOffset cfg pc + gen.size < 2*cfg.targetPageSize) :
    Placed cfg (s.linkTb cfg tb mmu pc gen).world ⟨pc,gen.size,mmu⟩ tb where
  pc := by simp [CodePages.linkTb,hpc]
  size := by simp [CodePages.linkTb]
  first := by
    rw [linkTb_links,tbLinkPage_nodePage,if_neg (by simp),if_pos rfl,pageIndex_getPageAddrCode]
  second hne := by
    rw [linkTb_links,tbLinkPage_nodePage,if_pos rfl]
    exact physPage2_of_ne hne
  fits := hfits

theorem Inv.linkTb (h : Inv cfg s page) (htb : tb ∉ s.live) (hbound : tb < s.world.nbTbs)
    (hpc : (s.world.desc tb).pc = pc)
    (hfits : pageOffset cfg pc + gen.size < 2*cfg.targetPageSize) :
    ∃ page', Inv cfg (s.linkTb cfg tb mmu pc gen) page' := by
  obtain ⟨page',hpages,hold⟩ := h.pages.link htb
  have hliveOld : ∀ x ∈ s.live, x ≠ tb := fun x hx heq => htb (heq ▸ hx)
  refine ⟨page',hpages,fun x hx => ?_,fun x hx => ?_,fun p hp => ?_,fun p tab htable node hnode =>
      ?_⟩
  · rcases Finset.mem_insert.mp hx with rfl | hx
    · exact hbound
    · exact h.bound x hx
  · rw [linkTb_source]
    rcases Finset.mem_insert.mp hx with rfl | hx
    · rw [if_pos rfl]
      exact placed_linkTb hpc hfits
    · have hne := hliveOld x hx
      rw [if_neg hne]
      exact (h.placed x hx).congr (linkTb_desc s hne) fun m => by
        rw [linkTb_links,tbLinkPage_nodePage_of_ne hne]
  · obtain ⟨⟨x,m⟩,hnode⟩ := exists_mem_of_ne_nil _ hp
    rw [linkTb_pageFind]
    by_cases hx : x = tb
    · subst hx
      rcases tbLinkPage_nodePage_self ((hpages.mem p (Set.mem_univ _) _).mp hnode).2 with hfirst |
          hsecond
      · exact .inl (by rw [hfirst])
      · exact .inr (.inl ⟨p,hsecond,rfl⟩)
    · exact .inr (.inr (h.found p (ne_nil_of_mem (hold p _ hnode hx))))
  · obtain ⟨hfirst,hsecond,htabOld⟩ := tbLinkPage_bitmap htable
    obtain ⟨x,m⟩ := node
    by_cases hx : x = tb
    · subst hx
      rcases tbLinkPage_nodePage_self ((hpages.mem p (Set.mem_univ _) _).mp hnode).2 with hpage |
          hpage
      · exact absurd hpage.symm hfirst
      · exact absurd hpage hsecond
    · rw [linkTb_desc s hx]
      exact h.bitmap p tab htabOld (x,m) (hold p _ hnode hx)

end Link

def Fits (cfg : Config) (pc : Nat) : Option GenCode → Prop
  | none => True
  | some gen => pageOffset cfg pc + gen.size < 2*cfg.targetPageSize

instance (cfg : Config) (pc : Nat) : DecidablePred (Fits cfg pc)
  | none => instDecidableTrue
  | some _ => Nat.decLt _ _

theorem Inv.genCode {c : Fin n} {mmu : Nat → Nat} {state : TbCpuState} {cflags : Nat}
    {gen : Option GenCode} {found : Option TbId} (h : Inv cfg s page)
    (hfits : Fits cfg state.pc gen)
    (hnext : s.tbGenCode cfg c mmu state cflags gen = some (next,found)) :
    ∃ page', Inv cfg next page' := by
  simp only [tbGenCode,bind_eq_bind,bind_eq_some_iff,Prod.exists] at hnext
  obtain ⟨w,tb,halloc,hnext⟩ := hnext
  obtain ⟨base,hbase,hall⟩ := World.tbAllocFlushing_some halloc
  obtain ⟨live,hlive⟩ : ∃ live, live =
      if s.world.tbAllocRefused cfg then (∅ : Finset TbId) else s.live := ⟨_,rfl⟩
  rw [← hlive] at hnext
  obtain ⟨page0,h0⟩ : ∃ page0, Inv cfg { s with world := base, live := live } page0 := by
    rcases hbase with ⟨href,rfl⟩ | ⟨href,hflush⟩
    · rw [href,if_neg nofun] at hlive
      subst hlive
      exact ⟨page,h⟩
    · rw [href,if_pos rfl] at hlive
      subst hlive
      exact ⟨_,Inv.flush hflush⟩
  have htb : tb ∉ live := by
    intro hmem
    have hlt := h0.bound tb hmem
    rw [hall.tb_eq] at hlt
    exact Nat.lt_irrefl _ hlt
  have hopen : Inv cfg { s with world := w.openTb tb state cflags, live := live } page0 := by
    refine h0.congr hall.links (fun x hx => ?_) (fun x hx => ?_) rfl rfl rfl
    · have hne : x ≠ tb := fun heq => htb (heq ▸ hx)
      simp [World.openTb,hall.desc,hne]
    · have hnbTbs : (w.openTb tb state cflags).nbTbs = base.nbTbs+1 := hall.nbTbs
      exact Nat.lt_of_lt_of_eq (Nat.lt_succ_of_lt (h0.bound x hx)) hnbTbs.symm
  cases gen with
  | none =>
    cases hnext
    exact ⟨page0,hopen⟩
  | some gen =>
    cases hnext
    refine hopen.linkTb htb ?_ ?_ hfits
    · have hnbTbs : (w.openTb tb state cflags).nbTbs = base.nbTbs+1 := hall.nbTbs
      rw [hnbTbs,hall.tb_eq]
      exact Nat.lt_succ_self _
    · simp [World.openTb,hall.desc]

theorem Inv.tbFree (h : Inv cfg s page) (htb : tb ∉ s.live) : Inv cfg (s.tbFree tb) page := by
  unfold CodePages.tbFree
  split
  · rename_i hlast
    refine h.congr rfl (fun _ _ => rfl) (fun x hx => ?_) rfl rfl rfl
    have hlt : x < tb+1 := hlast ▸ h.bound x hx
    have hne : x ≠ tb := fun heq => htb (heq ▸ hx)
    exact Nat.lt_of_le_of_ne (Nat.le_of_lt_succ hlt) hne
  · exact h

def FitsPages (cfg : Config) : Action n → Prop
  | .genCode _ _ state _ gen => Fits cfg state.pc gen
  | .execNocache _ _ state _ gen => Fits cfg state.pc gen
  | _ => True

instance (cfg : Config) : DecidablePred (FitsPages cfg : Action n → Prop)
  | .genCode _ _ _ _ _ => inferInstanceAs (Decidable (Fits _ _ _))
  | .execNocache _ _ _ _ _ => inferInstanceAs (Decidable (Fits _ _ _))
  | .physInvalidate _ => instDecidableTrue
  | .invalidateRange _ _ _ => instDecidableTrue
  | .store _ _ => instDecidableTrue
  | .flush _ => instDecidableTrue

theorem Inv.step {action : Action n} (hbits : 3 ≤ cfg.targetPageBits)
    (h : ∃ page, Inv cfg s page) (hfits : FitsPages cfg action)
    (hnext : s.step cfg action = some next) : ∃ page, Inv cfg next page := by
  obtain ⟨page,h⟩ := h
  cases action with
  | genCode c mmu state cflags gen =>
    obtain ⟨found,hnext⟩ := exists_of_map_fst hnext
    exact h.genCode hfits hnext
  | execNocache c mmu state cflags gen =>
    simp only [CodePages.step,cpuExecNocache,bind_eq_bind,bind_eq_some_iff,Prod.exists] at hnext
    obtain ⟨mid,found,hmid,hnext⟩ := hnext
    obtain ⟨page',h'⟩ := h.genCode hfits hmid
    cases found with
    | none =>
      cases hnext
      exact ⟨page',h'⟩
    | some tb =>
      rw [bind_eq_some_iff] at hnext
      obtain ⟨last,hlast,hnext⟩ := hnext
      cases hnext
      obtain ⟨page'',h''⟩ := h'.physInvalidate hlast
      refine ⟨page'',h''.tbFree ?_⟩
      simp only [CodePages.physInvalidate,map_eq_some_iff] at hlast
      obtain ⟨w,-,rfl⟩ := hlast
      exact Finset.notMem_erase _ _
  | physInvalidate tb => exact h.physInvalidate hnext
  | invalidateRange start stop isCpuWriteAccess => exact h.range hbits hnext
  | store start shift =>
    simp only [CodePages.step] at hnext
    split at hnext
    · exact h.store hbits hnext
    · cases hnext
  | flush c =>
    simp only [CodePages.step,map_eq_some_iff] at hnext
    obtain ⟨w,hw,rfl⟩ := hnext
    exact ⟨_,Inv.flush hw⟩

/-- The bitmap of a page has a bit for every byte that a block of its list was translated from, and
a guest store that is ignored touches no byte of a live block. -/
structure Sound (cfg : Config) (s : CodePages n) : Prop where
  bitmap : ∀ p tab, (s.world.links.pageDesc p).codeBitmap = some tab →
    ∃ nodes, Seg s.world.links.page pageCell (.firstTb p) nodes none ∧
      ∀ node ∈ nodes, ∀ k < (s.source node.1).size,
        pageIndex cfg ((s.source node.1).addr cfg k) = p →
          bitAt tab (pageOffset cfg ((s.source node.1).addr cfg k)) = true
  ignored : ∀ start, ∀ shift : Fin 4,
    pageOffset cfg start + 1 <<< shift.val ≤ cfg.targetPageSize →
    (∀ piece ∈ storePieces start (1 <<< shift.val), s.ignores cfg piece.1 piece.2 = true) →
    ∀ tb ∈ s.live, ∀ k < (s.source tb).size,
      ¬(start ≤ (s.source tb).addr cfg k ∧ (s.source tb).addr cfg k < start+1 <<< shift.val)

theorem Inv.bit (h : Inv cfg s page) (htable : (s.world.links.pageDesc p).codeBitmap = some tab)
    (htb : tb ∈ s.live) (hk : k < (s.source tb).size)
    (hp : pageIndex cfg ((s.source tb).addr cfg k) = p) :
    bitAt tab (pageOffset cfg ((s.source tb).addr cfg k)) = true := by
  obtain ⟨m,hpage,hlow,hhi⟩ := (h.placed tb htb).covers hk
  have hnode : (tb,m) ∈ page p := (h.pages.mem p (Set.mem_univ _) _).mpr ⟨htb,hp ▸ hpage⟩
  exact h.bitmap p tab htable _ hnode _ hlow hhi

theorem ignores_bit {len i : Nat} (hignored : s.ignores cfg start len = true)
    (hfound : s.pageFind (pageIndex cfg start) = true)
    (htable : (s.world.links.pageDesc (pageIndex cfg start)).codeBitmap = some tab)
    (hlow : pageOffset cfg start ≤ i) (hhi : i < pageOffset cfg start + len)
    (hbyte : i/8 = pageOffset cfg start / 8) : bitAt tab i = false := by
  simp only [ignores,hfound,Bool.not_true,htable,Bool.false_or,beq_iff_eq] at hignored
  have hbit := congrArg (fun x => x.testBit (i - pageOffset cfg start)) hignored
  have hlt : i - pageOffset cfg start < len := by omega
  have hmod : pageOffset cfg start % 8 + (i - pageOffset cfg start) = i%8 := by omega
  simp only [Nat.testBit_and,Nat.testBit_shiftRight,Nat.one_shiftLeft,
    Nat.testBit_two_pow_sub_one,hlt,decide_true,Bool.and_true,Nat.zero_testBit,hmod] at hbit
  unfold bitAt
  rw [hbyte]
  exact hbit

theorem Inv.ignored {len : Nat} (h : Inv cfg s page)
    (hpage : pageOffset cfg start + len ≤ cfg.targetPageSize)
    (hbyte : pageOffset cfg start % 8 + len ≤ 8) (hignored : s.ignores cfg start len = true)
    (htb : tb ∈ s.live) (hk : k < (s.source tb).size) :
    ¬(start ≤ (s.source tb).addr cfg k ∧ (s.source tb).addr cfg k < start+len) := by
  rintro ⟨hlow,hhi⟩
  obtain ⟨d,hd⟩ : ∃ d, (s.source tb).addr cfg k = start+d := ⟨_,(Nat.add_sub_of_le hlow).symm⟩
  obtain ⟨hindex,hoff⟩ : pageIndex cfg ((s.source tb).addr cfg k) = pageIndex cfg start ∧
      pageOffset cfg ((s.source tb).addr cfg k) = pageOffset cfg start + d := by
    rw [hd]
    exact page_of_lt (by omega)
  obtain ⟨m,hnodePage,-,-⟩ := (h.placed tb htb).covers hk
  have hnode : (tb,m) ∈ page (pageIndex cfg start) :=
    (h.pages.mem _ (Set.mem_univ _) _).mpr ⟨htb,hindex ▸ hnodePage⟩
  have hfound := h.found _ (ne_nil_of_mem hnode)
  cases htable : (s.world.links.pageDesc (pageIndex cfg start)).codeBitmap with
  | none => simp [ignores,hfound,htable] at hignored
  | some tab =>
    have hset := h.bit htable htb hk hindex
    have hclear := ignores_bit (i := pageOffset cfg start + d) hignored hfound htable (by omega)
      (by omega) (by omega)
    rw [hoff,hclear] at hset
    cases hset

theorem storePieces_spec {shift : Nat} (hshift : shift < 4) (hbits : 3 ≤ cfg.targetPageBits)
    (hpage : pageOffset cfg start + 1 <<< shift ≤ cfg.targetPageSize) {addr : Nat}
    (hlow : start ≤ addr) (hhi : addr < start+1 <<< shift) :
    ∃ piece ∈ storePieces start (1 <<< shift), piece.1 ≤ addr ∧ addr < piece.1+piece.2 ∧
      pageOffset cfg piece.1 + piece.2 ≤ cfg.targetPageSize ∧
      pageOffset cfg piece.1 % 8 + piece.2 ≤ 8 := by
  obtain ⟨q,hq⟩ := eight_dvd hbits
  have hmod : pageOffset cfg start % 8 = start%8 := by
    unfold pageOffset
    rw [hq,Nat.mod_mul_right_mod]
  unfold storePieces
  split
  · refine ⟨(addr,1),?_,Nat.le_refl _,Nat.lt_succ_self _,?_,by omega⟩
    · simp only [mem_reverse,List.mem_map,mem_range,Prod.mk.injEq,and_true]
      exact ⟨addr-start,by omega,by omega⟩
    · exact Nat.mod_lt _ (targetPageSize_pos cfg)
  · rename_i halign
    split
    · rename_i height
      rw [height] at hpage hhi halign
      by_cases hfirst : addr < start+4
      · refine ⟨(start,4),by simp,hlow,hfirst,?_⟩
        dsimp only
        omega
      · have hoff : pageOffset cfg (start+4) = pageOffset cfg start + 4 := (page_of_lt (by omega)).2
        refine ⟨(start+4,4),by simp,?_⟩
        dsimp only
        omega
    · refine ⟨(start,1 <<< shift),by simp,hlow,hhi,hpage,?_⟩
      rename_i hne
      have hcases : shift = 0 ∨ shift = 1 ∨ shift = 2 ∨ shift = 3 := by omega
      rcases hcases with rfl | rfl | rfl | rfl
      · simp
        omega
      · simp at halign ⊢
        omega
      · simp at halign ⊢
        omega
      · exact absurd rfl hne

theorem Inv.sound (h : Inv cfg s page) (hbits : 3 ≤ cfg.targetPageBits) : Sound cfg s where
  bitmap p tab htable := by
    refine ⟨page p,h.pages.lists.seg p (Set.mem_univ _),fun node hnode k hk hp => ?_⟩
    exact h.bit htable ((h.pages.mem p (Set.mem_univ _) node).mp hnode).1 hk hp
  ignored start shift hpage hignored tb htb k hk := by
    rintro ⟨hlow,hhi⟩
    obtain ⟨piece,hpiece,hplow,hphigh,hppage,hpbyte⟩ :=
      storePieces_spec shift.isLt hbits hpage hlow hhi
    exact h.ignored hppage hpbyte (hignored piece hpiece) htb hk ⟨hplow,hphigh⟩

/-- In every run in which each translated block ends before the end of the page behind its
first, no ignored store touches a live block. -/
theorem ignored_stores_miss {n : Nat} (cfg : Config) (hbits : 3 ≤ cfg.targetPageBits)
    (actions : List (Action n))
    (hfits : Meets (step cfg) (fun _ => FitsPages cfg) (initial n) actions) :
    Always (step cfg) (Sound cfg) (initial n) actions := by
  have hinit : ∃ page, Inv cfg (initial n) page := ⟨_,inv_empty (fun _ => rfl) fun _ => rfl⟩
  have halways := always_of_meets (fun state action next h hfits hnext =>
    Inv.step hbits h hfits hnext) hinit hfits
  exact halways.imp fun state ⟨page,h⟩ => h.sound hbits

def crossingBlock : List (Action 1) :=
  .genCode 0 id ⟨0x1ffc,0,0⟩ 0 (some ⟨8,32,fun _ => none⟩) ::
    List.replicate 12 (.store 0x2010 2) ++ [.store 0x2002 1,.flush 0]

theorem ignored_stores_miss_crossingBlock :
    Always (step smallConfig) (Sound smallConfig) (initial 1) crossingBlock :=
  ignored_stores_miss smallConfig (by decide) crossingBlock (by decide +kernel)

def i386Config : Config := { smallConfig with targetI386 := true }

def longInstruction : List (Action 1) :=
  .genCode 0 id ⟨0x1000,0,0⟩ 0 (some ⟨0x2000,32,fun _ => none⟩) ::
    List.replicate 10 (.store 0x2000 0)

/-- The bitmap built for the second page is empty, and the next store to the code there is
ignored. -/
theorem long_instruction_missed :
    ∃ s, run (step i386Config) (initial 1) longInstruction = some s ∧
      s.ignores i386Config 0x2000 1 = true ∧ 0 ∈ s.live ∧
      (∃ k < (s.source 0).size, (s.source 0).addr i386Config k = 0x2000) ∧
      ¬ Sound i386Config s := by
  have hfinal : (run (step i386Config) (initial 1)
      longInstruction).map (fun s => (s.ignores i386Config 0x2000 1,decide (0 ∈ s.live),
        (s.source 0).size,(s.source 0).addr i386Config 0x1000)) =
      some (true,true,0x2000,0x2000) := by decide +kernel
  obtain ⟨s,hrun,hs⟩ := map_eq_some_iff.mp hfinal
  simp only [Prod.mk.injEq,decide_eq_true_eq] at hs
  obtain ⟨hignored,hlive,hsize,haddr⟩ := hs
  have hk : 0x1000 < (s.source 0).size := by
    rw [hsize]
    decide
  refine ⟨s,hrun,hignored,hlive,⟨0x1000,hk,haddr⟩,fun hsound => ?_⟩
  apply hsound.ignored 0x2000 0 (by decide) ?_ 0 hlive 0x1000 hk
  · rw [haddr]
    decide
  · intro piece hpiece
    have hone : piece = (0x2000,1) := by simpa [storePieces] using hpiece
    rw [hone]
    exact hignored

end CodePages

end Hqemu.Exec
