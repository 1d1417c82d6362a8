import Hqemu.Exec.MmapFlags
import Hqemu.Exec.HostPages

/-! A write fault makes a page writable that was protected because of its code; the guest must have
mapped it writable. -/
namespace Hqemu.Exec

open Bool Option Lib.Run Links

namespace UserPages

variable {n : Nat} {cfg : Config}

/-- `last` has for each page whether the last mapping call of the guest on it gave write
access. -/
structure Rights (n : Nat) where
  pages : UserPages n
  last : Nat → Option Bool

namespace Rights

variable {t next : Rights n} {s : UserPages n}

def initial (n : Nat) : Rights n := ⟨UserPages.initial n,fun _ => none⟩

def setLast (cfg : Config) (last : Nat → Option Bool) (start stop : Nat)
    (write : Nat → Option Bool) (p : Nat) : Option Bool :=
  if inRange cfg start stop p then write p else last p

def oldPage (cfg : Config) (old oldSize new p : Nat) : Nat :=
  min (pageIndex cfg old + (p - pageIndex cfg new))
    (max (pageIndex cfg old) (pageIndex cfg (old+oldSize-1)))

def lastAfter (cfg : Config) (t : Rights n) : Action n → Nat → Option Bool
  | .mprotect start len prot host =>
    match targetMprotect cfg host t.pages start len prot with
    | some (_,true) => setLast cfg t.last start (start + targetPageAlign cfg len) fun _ =>
      some (prot &&& pageWrite != 0)
    | _ => t.last
  | .mmap request host =>
    match targetMmap cfg host t.pages request with
    | some (_,some addr) =>
      if targetPageAlign cfg request.len = 0 then t.last
      else setLast cfg t.last addr (addr + targetPageAlign cfg request.len) fun _ =>
        some (request.prot &&& pageWrite != 0)
    | _ => t.last
  | .mremap old oldSize newSize mode host =>
    match targetMremap cfg host t.pages old oldSize newSize mode with
    | some (_,some new) => setLast cfg t.last new (new+newSize) fun p =>
      t.last (oldPage cfg old oldSize new p)
    | _ => t.last
  | _ => t.last

def step (cfg : Config) (t : Rights n) (action : Action n) : Option (Rights n) :=
  (t.pages.step cfg action).map fun s => ⟨s,t.lastAfter cfg action⟩

/-- A page that the guest mapped without write access is not recorded as writable, and a fault opens
a host page only for a page mapped writable. -/
structure Rightful (cfg : Config) (t : Rights n) : Prop where
  recorded : ∀ p, t.last p = some false → pageFlags t.pages.links p &&& pageWrite = 0
  faults : ∀ address leave s, t.pages.pageUnprotect cfg address leave = some s →
    ∀ hostPage, writable t.pages.links.hostProt hostPage = false →
      writable s.links.hostProt hostPage = true →
        ∃ p, p*cfg.targetPageSize/cfg.hostPageSize =
          hostPage*cfg.realHostPageSize/cfg.hostPageSize ∧ t.last p = some true

/-- A fault makes no page writable that the guest mapped read-only. A mapping that fails was to
read a file into writable pages; another leaves no old right to write in its range and gives none
behind it. A mapping moved with write access has it on all pages. -/
def Respects (cfg : Config) (t : Rights n) : Action n → Prop
  | .writeFault address leave => Faults cfg t.pages address → ∀ p,
      InFault cfg address leave p → t.last p ≠ some false
  | .mmap request host =>
    (MayWrite request.prot → request.prot &&& pageWrite ≠ 0) ∧
    ∀ a result, targetMmap cfg host t.pages.view request = some (a,result) →
      match result with
      | none => ∀ len, AddressSpace.Admitted cfg request len → request.fixed = true →
          AddressSpace.Reads cfg request → ∀ p,
            inRange cfg request.start (request.start + targetPageAlign cfg len) p = true →
              t.last p = some true
      | some addr => ∀ len, mmapLen cfg request = some len → ∀ p,
          match inRange cfg addr (addr + targetPageAlign cfg request.len) p,
            inRange cfg addr (addr+AddressSpace.flaggedLen cfg request len) p with
          | true, false => request.prot &&& pageWrite = 0 →
              ¬ MayWrite (pageFlags t.pages.links p)
          | false, true => request.prot &&& pageWrite ≠ 0 → t.last p = some true
          | _, _ => True
  | .mremap old oldSize _ _ _ => MayWrite (pageFlags t.pages.links (pageIndex cfg old)) →
      ∀ p, pageIndex cfg old ≤ p → p ≤ max (pageIndex cfg old) (pageIndex cfg (old+oldSize-1)) →
        t.last p = some true
  | _ => True

structure Honest (t : Rights n) : Prop where
  without : ∀ p, t.last p = some false → ¬ MayWrite (pageFlags t.pages.links p)
  allowed : ∀ p, pageFlags t.pages.links p &&& pageWriteOrg ≠ 0 → t.last p = some true

theorem Honest.of_flags (h : Honest t)
    (hflags : ∀ p, (MayWrite (pageFlags s.links p) → MayWrite (pageFlags t.pages.links p)) ∧
      (pageFlags s.links p &&& pageWriteOrg ≠ 0 →
        pageFlags t.pages.links p &&& pageWriteOrg ≠ 0) ∨ t.last p = some true) :
    Honest ⟨s,t.last⟩ := by
  refine ⟨fun p hp hmay => ?_,fun p horigin => ?_⟩
  · rcases hflags p with hlow | htrue
    · exact h.without p hp (hlow.1 hmay)
    · cases hp.symm.trans htrue
  · rcases hflags p with hlow | htrue
    · exact h.allowed p (hlow.2 horigin)
    · exact htrue

theorem Honest.maps {a b : AddressSpace} {addr stop stop' prot : Nat} (h : Honest t)
    (ha : pageFlags t.pages.links = a.flags) (hb : pageFlags s.links = b.flags)
    (hmaps : AddressSpace.Maps cfg a b addr stop prot)
    (hprot : MayWrite prot → prot &&& pageWrite ≠ 0)
    (hleft : ∀ p, inRange cfg addr stop' p = true → inRange cfg addr stop p = false →
      prot &&& pageWrite = 0 → ¬ MayWrite (pageFlags t.pages.links p))
    (hextra : ∀ p, inRange cfg addr stop p = true → inRange cfg addr stop' p = false →
      prot &&& pageWrite ≠ 0 → t.last p = some true) :
    Honest ⟨s,setLast cfg t.last addr stop' fun _ => some (prot &&& pageWrite != 0)⟩ := by
  have horigin : ∀ flags : Nat, flags &&& pageWriteOrg ≠ 0 → MayWrite flags := fun _ => .inr
  have hpage : ∀ p, (setLast cfg t.last addr stop' (fun _ => some (prot &&& pageWrite != 0)) p =
        some false → ¬ MayWrite (b.flags p)) ∧
      (b.flags p &&& pageWriteOrg ≠ 0 →
        setLast cfg t.last addr stop' (fun _ => some (prot &&& pageWrite != 0)) p = some true) := by
    intro p
    unfold setLast
    cases hasked : inRange cfg addr stop' p <;> cases hset : inRange cfg addr stop p
    · simp only [false_eq_true,if_false]
      rw [hmaps.outside p hset,← ha]
      exact ⟨h.without p,h.allowed p⟩
    · simp only [false_eq_true,if_false]
      obtain ⟨-,hmay⟩ := hmaps.inside p hset
      refine ⟨fun hlast hp => ?_,fun hp => hextra p hset hasked (hprot (hmay (horigin _ hp)))⟩
      cases hlast.symm.trans (hextra p hset hasked (hprot (hmay hp)))
    · simp only [if_true]
      rw [hmaps.outside p hset,← ha,some.injEq,some.injEq,bne_eq_false_iff_eq,bne_iff_ne]
      refine ⟨hleft p hasked hset,fun hp hz => ?_⟩
      exact hleft p hasked hset hz (horigin _ hp)
    · simp only [if_true]
      obtain ⟨-,hmay⟩ := hmaps.inside p hset
      rw [some.injEq,some.injEq,bne_eq_false_iff_eq,bne_iff_ne]
      exact ⟨fun hz hp => hprot (hmay hp) hz,fun hp => hprot (hmay (horigin _ hp))⟩
  refine ⟨fun p hp => ?_,fun p hp => ?_⟩
  · dsimp only at hp ⊢
    rw [hb]
    exact (hpage p).1 hp
  · dsimp only at hp ⊢
    rw [hb] at hp
    exact (hpage p).2 hp

theorem Honest.mprotect {start len prot : Nat} {host : Kernel} {done : Bool} (h : Honest t)
    (hs : targetMprotect cfg host t.pages start len prot = some (s,done)) :
    Honest ⟨s,t.lastAfter cfg (.mprotect start len prot host)⟩ := by
  obtain ⟨b,hb,htracks⟩ := (simulates_tracks n cfg).targetMprotect
    (tracks_view t.pages) start len prot s done hs
  have hflags := AddressSpace.targetMprotect_flags hb
  unfold lastAfter
  dsimp only
  rw [hs]
  cases done with
  | false =>
    apply h.of_flags
    intro p
    rw [htracks.flags,congrFun hflags p]
    exact .inl ⟨id,id⟩
  | true =>
    rw [← AddressSpace.and_pageBits_write]
    refine h.maps rfl htracks.flags hflags.maps (fun hmay => ?_) (fun p hin hout => ?_)
      fun p hin hout => ?_
    · rcases hmay with hwrite | horigin
      · exact hwrite
      · rw [Nat.and_assoc] at horigin
        exact absurd (Nat.and_zero prot) horigin
    · rw [hin] at hout
      cases hout
    · rw [hin] at hout
      cases hout

theorem Honest.mmap {request : MmapRequest} {host : Kernel} {result : Option Nat} (h : Honest t)
    (hrespects : Respects cfg t (.mmap request host))
    (hs : targetMmap cfg host t.pages request = some (s,result)) :
    Honest ⟨s,t.lastAfter cfg (.mmap request host)⟩ := by
  obtain ⟨b,hb,htracks⟩ := (simulates_tracks n cfg).targetMmap
    (tracks_view t.pages) request s result hs
  obtain ⟨hprot,hrespects⟩ := hrespects
  have hcond := hrespects b result hb
  unfold lastAfter
  dsimp only
  rw [hs]
  rcases AddressSpace.targetMmap_flags hb with ⟨rfl,hopen⟩ | ⟨hz,rfl⟩ |
      ⟨hnonzero,addr,len,rfl,hlen,hmaps⟩
  · apply h.of_flags
    intro p
    rcases hopen p with hsame | ⟨len,hadmitted,hfixed,hreads,hp⟩
    · rw [htracks.flags,hsame]
      exact .inl ⟨id,id⟩
    · exact .inr (hcond len hadmitted hfixed hreads p hp)
  · have hsame : Honest ⟨s,t.last⟩ := by
      apply h.of_flags
      intro p
      rw [htracks.flags]
      exact .inl ⟨id,id⟩
    cases result with
    | none => exact hsame
    | some addr =>
      dsimp only
      rw [if_pos hz]
      exact hsame
  · dsimp only
    rw [if_neg hnonzero]
    refine h.maps rfl htracks.flags hmaps hprot (fun p hin hout => ?_) fun p hin hout => ?_
    · have hpage := hcond len hlen p
      rw [hin,hout] at hpage
      exact hpage
    · have hpage := hcond len hlen p
      rw [hin,hout] at hpage
      exact hpage

theorem Honest.munmap {start len : Nat} {host : Kernel} {done : Bool} (h : Honest t)
    (hs : targetMunmap cfg host t.pages start len = some (s,done)) : Honest ⟨s,t.last⟩ := by
  obtain ⟨b,hb,htracks⟩ := (simulates_tracks n cfg).targetMunmap
    (tracks_view t.pages) start len s done hs
  apply h.of_flags
  intro p
  left
  rw [htracks.flags]
  rcases AddressSpace.targetMunmap_flags hb p with hsame | hz
  · rw [hsame]
    exact ⟨id,id⟩
  · rw [hz]
    exact ⟨fun hmay => absurd hmay (by decide),fun horigin => absurd rfl horigin⟩

theorem oldPage_mem (cfg : Config) (old oldSize new p : Nat) :
    pageIndex cfg old ≤ oldPage cfg old oldSize new p ∧ oldPage cfg old oldSize new p ≤
      max (pageIndex cfg old) (pageIndex cfg (old+oldSize-1)) := by
  unfold oldPage
  omega

theorem Honest.mremap {old oldSize newSize : Nat} {mode : MremapMode} {host : Kernel}
    {result : Option Nat} (h : Honest t)
    (hrespects : Respects cfg t (.mremap old oldSize newSize mode host))
    (hs : targetMremap cfg host t.pages old oldSize newSize mode = some (s,result)) :
    Honest ⟨s,t.lastAfter cfg (.mremap old oldSize newSize mode host)⟩ := by
  obtain ⟨b,hb,htracks⟩ := (simulates_tracks n cfg).targetMremap
    (tracks_view t.pages) old oldSize newSize mode s result hs
  unfold lastAfter
  dsimp only
  rw [hs]
  rcases AddressSpace.targetMremap_flags hb with ⟨rfl,hflags⟩ | ⟨new,rfl,hflags⟩
  · apply h.of_flags
    intro p
    rw [htracks.flags,hflags]
    exact .inl ⟨id,id⟩
  have hmoved : ∀ p, inRange cfg new (new+newSize) p = true → MayWrite (b.flags p) →
      t.last (oldPage cfg old oldSize new p) = some true := by
    intro p hp hmay
    have hpage := hflags p
    rw [if_pos hp] at hpage
    rw [hpage,mayWrite_storedFlags] at hmay
    obtain ⟨hlow,hhi⟩ := oldPage_mem cfg old oldSize new p
    exact hrespects hmay _ hlow hhi
  have hother : ∀ p, inRange cfg new (new+newSize) p = false →
      b.flags p = pageFlags t.pages.links p ∨ b.flags p = 0 := by
    intro p hp
    have hpage := hflags p
    rw [if_neg (eq_false_iff.mp hp)] at hpage
    exact hpage
  refine ⟨fun p hlast hmay => ?_,fun p horigin => ?_⟩
  · dsimp only [setLast] at hlast hmay
    rw [htracks.flags] at hmay
    cases hp : inRange cfg new (new+newSize) p with
    | true =>
      rw [if_pos hp,hmoved p hp hmay] at hlast
      cases hlast
    | false =>
      rw [if_neg (eq_false_iff.mp hp)] at hlast
      rcases hother p hp with hsame | hz
      · exact h.without p hlast (hsame ▸ hmay)
      · rw [hz] at hmay
        exact absurd hmay (by decide)
  · dsimp only [setLast] at horigin ⊢
    rw [htracks.flags] at horigin
    cases hp : inRange cfg new (new+newSize) p with
    | true => exact (if_pos rfl).trans (hmoved p hp (.inr horigin))
    | false =>
      rcases hother p hp with hsame | hz
      · exact h.allowed p (hsame ▸ horigin)
      · rw [hz] at horigin
        exact absurd rfl horigin

def Lowers (flags flags' : Nat → Nat) : Prop :=
  ∀ p i, (flags' p).testBit i = true → (flags p).testBit i = true

theorem Lowers.refl (flags : Nat → Nat) : Lowers flags flags := fun _ _ h => h

theorem Lowers.trans {flags flags' last : Nat → Nat} (h : Lowers flags flags')
    (hlast : Lowers flags' last) : Lowers flags last := fun p i hi => h p i (hlast p i hi)

theorem lowers_protectPage (links : Links) (addr : Nat) :
    Lowers (pageFlags links) (pageFlags (links.protectPage cfg addr)) := by
  intro p i hi
  rw [pageFlags_protectPage] at hi
  split at hi
  · rw [clearWrite_testBit,and_eq_true] at hi
    exact hi.1
  · exact hi

theorem lowers_tbGenCode {w w' : World n} {c : Fin n} {state : TbCpuState} {cflags : Nat}
    {gen : Option GenCode} {found : Option TbId}
    (h : w.tbGenCode cfg c state cflags gen = some (w',found)) :
    Lowers (pageFlags w.links) (pageFlags w'.links) := by
  have hbase : ∀ base, World.AllocBase cfg w c base → pageFlags base.links = pageFlags w.links := by
    rintro base (⟨-,rfl⟩ | ⟨-,hflush⟩)
    · rfl
    · exact (tbFlush_pageFlags hflush).1
  cases gen with
  | none =>
    obtain ⟨-,base,halloc,hmid⟩ := World.tbGenCode_faulted h
    rw [(hmid.faulted rfl).1,hbase base halloc]
    exact Lowers.refl _
  | some gen =>
    obtain ⟨base,tb,-,halloc,hlink⟩ := World.tbGenCode_linked h
    rw [hlink.links,(sameProt_tbLinkPage ..).flags,← hbase base halloc]
    cases World.page2 cfg state.pc gen.size with
    | none => exact lowers_protectPage _ _
    | some page2 => exact (lowers_protectPage _ _).trans (lowers_protectPage _ _)

theorem lowers_tbFindFast {w w' : World n} {c : Fin n} {gen : Option GenCode}
    {found : Option TbId} (h : w.tbFindFast cfg c gen = some (w',found)) :
    Lowers (pageFlags w.links) (pageFlags w'.links) := by
  by_cases hmiss : w.findMisses cfg c = true
  · obtain ⟨mid,hmid,rfl⟩ := World.tbFindFast_of_misses h hmiss
    have hlowers := lowers_tbGenCode hmid
    cases found with
    | none | some _ => exact hlowers
  · cases World.tbFindFast_some h with
    | cached tb hhit =>
      rw [(World.startProfileIfCold_same ..).1]
      exact Lowers.refl _
    | hashed tb hfound =>
      have hlinks : (World.setTbJmpCache cfg ({ w with tbInvalidatedFlag := false
          }.startProfileIfCold tb)
          c (w.cpus c).state.pc tb).links = w.links := by simp [World.setTbJmpCache,World.updateCpu]
      rw [hlinks]
      exact Lowers.refl _
    | translated base mid tb hmiss' | faulted base mid hmiss' => exact absurd hmiss' hmiss

theorem and_pageWriteOrg_eq_zero (x : Nat) : x &&& pageWriteOrg = 0 ↔ x.testBit 4 = false := by
  have hbit : x &&& pageWriteOrg = (x.testBit 4).toNat * 2^4 := Nat.and_two_pow x 4
  rw [hbit]
  cases x.testBit 4 <;> simp

theorem Honest.lowers (h : Honest t)
    (hlowers : Lowers (pageFlags t.pages.links) (pageFlags s.links)) : Honest ⟨s,t.last⟩ := by
  apply h.of_flags
  intro p
  have hwrite := hlowers p 1
  have horigin := hlowers p 4
  left
  simp only [MayWrite,ne_eq,and_pageWrite_eq_zero,and_pageWriteOrg_eq_zero,not_eq_false]
  exact ⟨Or.imp hwrite horigin,horigin⟩

theorem Honest.pageUnprotect {address : Nat} {leave : Option Nat} (h : Honest t)
    (hrespects : Respects cfg t (.writeFault address leave))
    (hs : t.pages.pageUnprotect cfg address leave = some s) : Honest ⟨s,t.last⟩ := by
  rcases pageUnprotect_some hs with ⟨-,rfl⟩ | ⟨hfaults,mid,hmid,hnext⟩
  · exact h
  have hflags : pageFlags s.links = pageFlags mid.links := by
    rcases hnext with rfl | ⟨-,prot,-,rfl⟩ <;> rfl
  refine ⟨fun p hlast hmay => ?_,fun p horigin => ?_⟩
  · dsimp only at hlast hmay
    rw [hflags,hmid.flags] at hmay
    split at hmay
    · rename_i hp
      exact hrespects hfaults p hp hlast
    · exact h.without p hlast hmay
  · dsimp only at horigin ⊢
    rw [hflags,hmid.flags] at horigin
    split at horigin
    · rw [Nat.and_or_distrib_right] at horigin
      exact h.allowed p fun hz => horigin (by rw [hz]; rfl)
    · exact h.allowed p horigin

theorem Honest.step {action : Action n} (h : Honest t) (hrespects : Respects cfg t action)
    (hnext : t.step cfg action = some next) : Honest next := by
  obtain ⟨s,hs,rfl⟩ := map_eq_some_iff.mp hnext
  cases action with
  | mprotect start len prot host =>
    obtain ⟨⟨s',done⟩,hs',rfl⟩ := map_eq_some_iff.mp hs
    exact h.mprotect hs'
  | mmap request host =>
    obtain ⟨⟨s',result⟩,hs',rfl⟩ := map_eq_some_iff.mp hs
    exact h.mmap hrespects hs'
  | munmap start len host =>
    obtain ⟨⟨s',done⟩,hs',rfl⟩ := map_eq_some_iff.mp hs
    exact h.munmap hs'
  | mremap old oldSize newSize mode host =>
    obtain ⟨⟨s',result⟩,hs',rfl⟩ := map_eq_some_iff.mp hs
    exact h.mremap hrespects hs'
  | writeFault address leave => exact h.pageUnprotect hrespects hs
  | runGuest c state =>
    obtain rfl : _ = s := some.inj hs
    exact h.lowers (Lowers.refl _)
  | findFast c gen =>
    simp only [UserPages.step,UserPages.tbFindFast,Option.map_map,map_eq_some_iff,
      Prod.exists,Function.comp_apply] at hs
    obtain ⟨w,found,hw,rfl⟩ := hs
    have hlowers := lowers_tbFindFast hw
    apply h.lowers
    split
    · cases found with
      | none | some _ => exact hlowers
    · exact hlowers
  | genCode c state cflags gen =>
    simp only [UserPages.step,UserPages.tbGenCode,Option.map_map,map_eq_some_iff,
      Prod.exists,Function.comp_apply] at hs
    obtain ⟨w,found,hw,rfl⟩ := hs
    have hlowers := lowers_tbGenCode hw
    apply h.lowers
    cases found with
    | none | some _ => exact hlowers
  | physInvalidate tb =>
    apply h.lowers
    rw [(keeps_physInvalidate hs).2]
    exact Lowers.refl _
  | flush c =>
    obtain ⟨w,hflush,rfl⟩ := map_eq_some_iff.mp hs
    apply h.lowers
    have hflags : pageFlags (UserPages.links { t.pages with world := w, live := ∅ }) =
        pageFlags t.pages.links := (tbFlush_pageFlags hflush).1
    rw [hflags]
    exact Lowers.refl _

theorem Honest.rightful (hpaged : cfg.Paged) (h : Honest t) : Rightful cfg t where
  recorded p hp := by
    by_contra hwrite
    exact h.without p hp (.inl hwrite)
  faults address leave s hs hostPage hbefore hafter := by
    rcases pageUnprotect_some hs with ⟨-,rfl⟩ | ⟨hfaults,mid,hmid,hnext⟩
    · rw [hbefore] at hafter
      cases hafter
    have hkeep : writable mid.links.hostProt hostPage = false := by
      rw [hmid.keeps.hostProt]
      exact hbefore
    rcases hnext with rfl | ⟨-,prot,-,rfl⟩
    · rw [hkeep] at hafter
      cases hafter
    · refine ⟨pageIndex cfg address,?_,h.allowed _ hfaults.1⟩
      have hins : hostPage*cfg.realHostPageSize/cfg.hostPageSize = address/cfg.hostPageSize := by
        by_contra houtside
        unfold writable at hkeep hafter
        have hsame := congrArg (Option.any fun prot => prot &&& pageWrite != 0)
          (mprotect_host_of_ne hpaged (fun _ => true) mid.links.hostProt prot houtside)
        rw [← hsame] at hkeep
        cases hkeep.symm.trans hafter
      rw [hins]
      exact (sameHost_iff hpaged address _).mp (sameHost_self hpaged address)

/-- In every run that respects what the guest was given, the records and the faults do. -/
theorem rightful_of_respects {n : Nat} (cfg : Config) (hpaged : cfg.Paged)
    (actions : List (Action n)) (hrespects : Meets (step cfg) (Respects cfg) (initial n) actions) :
    Always (step cfg) (Rightful cfg) (initial n) actions := by
  have hinit : Honest (initial n) := ⟨fun p hp => (nomatch hp),fun p hp => absurd (Nat.zero_and _)
      hp⟩
  have halways := always_of_meets (fun state action next h hrespects hnext =>
    Honest.step h hrespects hnext) hinit hrespects
  exact halways.imp fun state h => h.rightful hpaged

theorem rightful_of_respects_modifiedCode :
    Always (step smallConfig) (Rightful smallConfig) (initial 1) modifiedCode := by
  apply rightful_of_respects smallConfig smallConfig_paged
  intro mapped hmap
  refine ⟨⟨fun _ => by decide,fun a result ha => ?_⟩,fun linked hlink =>
    ⟨trivial,fun last _ => ⟨fun _ p hp => ?_,trivial⟩⟩⟩
  · have hret : (targetMmap smallConfig willing (initial 1).pages.view
        (anonymousPage 0x1000 7)).map Prod.snd = some (some 0x1000) := by decide +kernel
    rw [ha,map_some,some.injEq] at hret
    cases hret
    intro len hlen p
    cases hlen
    have hflagged : AddressSpace.flaggedLen smallConfig (anonymousPage 0x1000 7)
        (targetPageAlign smallConfig (anonymousPage 0x1000 7).len) =
        targetPageAlign smallConfig (anonymousPage 0x1000 7).len := rfl
    rw [hflagged]
    cases inRange smallConfig 0x1000
        (0x1000 + targetPageAlign smallConfig (anonymousPage 0x1000 7).len) p <;> trivial
  · have hlast : ((initial 1).step smallConfig (.mmap (anonymousPage 0x1000 7) willing)).map
        (fun t => t.last 1) = some (some true) := by decide +kernel
    rw [hmap,map_some,some.injEq] at hlast
    obtain ⟨s,-,rfl⟩ := map_eq_some_iff.mp hlink
    have hpage : 1 ≤ p ∧ p < 1+1 := hp
    obtain rfl : p = 1 := by omega
    exact fun hfalse => nomatch hlast.symm.trans hfalse

def doubleConfig : Config := { smallConfig with hostPageSize := 8192, realHostPageSize := 8192 }

def sharedHostPage : List (Action 1) :=
  [.mmap (anonymousPage 0x2000 7) willing,.mmap (anonymousPage 0x3000 1) willing,
    .genCode 0 ⟨0x2000,0,0⟩ 0 (some smallBlock),.writeFault 0x2004 none]

/-- The read-only page is recorded as writable with the other. -/
theorem fault_records_neighbour :
    ∃ t, run (step doubleConfig) (initial 1) sharedHostPage = some t ∧ t.last 3 = some false ∧
      pageFlags t.pages.links 3 &&& pageWrite ≠ 0 ∧ ¬ Rightful doubleConfig t := by
  have hfinal : (run (step doubleConfig) (initial 1) sharedHostPage).map (fun t =>
      (t.last 3,pageFlags t.pages.links 3)) = some (some false,0xb) := by decide +kernel
  obtain ⟨t,hrun,ht⟩ := map_eq_some_iff.mp hfinal
  rw [Prod.mk.injEq] at ht
  have hwrite : pageFlags t.pages.links 3 &&& pageWrite ≠ 0 := by
    rw [ht.2]
    decide
  exact ⟨t,hrun,ht.1,hwrite,fun hrightful => hwrite (hrightful.recorded 3 ht.1)⟩

end Rights

end UserPages

end Hqemu.Exec
