import Hqemu.Exec.FixedFrame
import Hqemu.Exec.GuestRights

/-! What `target_mmap` at a fixed address, `target_munmap` and `target_mprotect` do to the pages
outside their range. -/
namespace Hqemu.Exec

open Nat UserPages Paging

variable {cfg : Config} {host : Kernel}

namespace AddressSpace

variable {a b : AddressSpace} {start len prot page : Nat} {shared : Bool}
  {file : Nat → Option FileMap}

structure Keeps (cfg : Config) (a b : AddressSpace) (page : Nat) : Prop where
  flags : b.flags page = a.flags page
  host : KeepsHost cfg (a.flags page) a.toHostMem b.toHostMem page

theorem Keeps.refl (cfg : Config) (a : AddressSpace) (page : Nat) : Keeps cfg a a page :=
  ⟨rfl,KeepsHost.refl cfg _ _ page⟩

theorem Keeps.trans {c : AddressSpace} (h : Keeps cfg a b page) (hlast : Keeps cfg b c page) :
    Keeps cfg a c page :=
  ⟨hlast.flags.trans h.flags,h.host.trans (h.flags ▸ hlast.host)⟩

theorem perform_lt {calls : List HostCall} {stop flags : Nat}
    (h : perform cfg host a calls start stop flags = some (b,true)) : start < cfg.abi stop := by
  unfold perform at h
  split at h
  · cases h
  obtain ⟨b',hb',-⟩ := Option.map_eq_some_iff.mp h
  by_contra hle
  change AddressSpace.pageSetFlags cfg _ start stop flags = some b' at hb'
  rw [AddressSpace.pageSetFlags,if_pos (Nat.le_of_not_lt hle)] at hb'
  cases hb'

theorem inRange_iff_of_dvd {stop : Nat} (halign : cfg.targetPageSize ∣ start) :
    inRange cfg start stop page = true ↔
      start ≤ page*cfg.targetPageSize ∧ page*cfg.targetPageSize < stop := by
  obtain ⟨k,rfl⟩ := halign
  have hpos := targetPageSize_pos cfg
  rw [inRange,Bool.and_eq_true,decide_eq_true_eq,decide_eq_true_eq,Nat.mul_div_cancel_left _ hpos,
    Nat.mul_comm cfg.targetPageSize k,Nat.mul_le_mul_right_iff hpos]

variable {result : Option Nat}

theorem mmapFixed_keeps (h : cfg.PageInit) (hstart : start < 2^cfg.targetLongBits)
    (hfile : ∀ i, (file i).isSome = (file 0).isSome) (hmap : a.flags page ≠ 0)
    (hout : hostStart cfg start < start → Outside cfg start len page)
    (hclass : ¬ Clash cfg a start len prot shared file page)
    (hrun : mmapFixed cfg host a start len prot shared file = some (b,result)) :
    Keeps cfg a b page := by
  obtain ⟨⟨b',done⟩,hperform,hb⟩ := Option.map_eq_some_iff.mp hrun
  cases hb
  obtain ⟨hhost,hflags⟩ := perform_some hperform
  obtain ⟨hhost,hdone⟩ := Prod.mk.inj hhost
  refine ⟨?_,?_⟩
  · cases done with
    | false => exact congrFun hflags page
    | true =>
      have hlt := perform_lt hperform
      rw [hflags page]
      split
      · rename_i hin
        by_cases hins : hostStart cfg start < start
        · have hout' := hout hins
          rw [inRange_iff_of_dvd hout'.aligned] at hin
          have := hout'.page
          omega
        · by_contra hne
          refine hclass (.beyond (le_antisymm (hostStart_le cfg start) (Nat.le_of_not_lt hins))
            hlt (fun htail => ?_) (.inr ⟨hin,Ne.symm hne⟩))
          rw [runCalls_giveUp (fixedCalls_giveUp hfile htail.2 (.inr htail.1))] at hdone
          cases hdone
      · rfl
  · rw [hhost]
    by_cases hlt : start < cfg.abi (start+len)
    · exact fixedCalls_keeps_of_lt h hstart hfile hmap hout hclass hlt
    refine fixedCalls_keeps_of_le h hstart hfile hmap hout hclass (Nat.le_of_not_lt hlt) ?_
    cases done with
    | false => exact hdone.symm
    | true => exact absurd (perform_lt hperform) hlt

structure MprotectClash (cfg : Config) (a : AddressSpace) (start len prot page : Nat) : Prop where
  aligned : start%cfg.targetPageSize = 0
  nonempty : targetPageAlign cfg len ≠ 0
  fits : start < cfg.abi (start + targetPageAlign cfg len)
  inside : hostStart cfg start < start
  last : hostStart cfg start + cfg.hostPageSize = 2^cfg.targetLongBits
  block : hostBlock cfg page = hostStart cfg start
  behind : start ≤ page*cfg.targetPageSize
  lost : ∃ hostPage, overlaps cfg hostPage page = true ∧ ∃ i,
    (a.flags page &&& pageBits).testBit i = true ∧ grants a.prot hostPage i = true ∧
      (lastProt cfg a.flags start (prot &&& pageBits)).testBit i = false

theorem abi_add_eq {n : Nat} (hstart : start < 2^cfg.targetLongBits) (hn : n < 2^cfg.targetLongBits)
    (h : ¬ cfg.abi (start+n) < start) : cfg.abi (start+n) = start+n := by
  unfold Config.abi at h ⊢
  by_cases hlt : start+n < 2^cfg.targetLongBits
  · exact mod_eq_of_lt hlt
  · rw [mod_eq_sub_mod (Nat.le_of_not_lt hlt),mod_eq_of_lt (by omega)] at h
    omega

theorem targetPageAlign_dvd (h : cfg.PageInit) (n : Nat) :
    cfg.targetPageSize ∣ targetPageAlign cfg n :=
  (dvd_mod_iff (h.paged.target.trans h.space)).mpr (Nat.dvd_mul_left _ _)

def Apart (cfg : Config) (start len page : Nat) : Prop :=
  start + targetPageAlign cfg len ≤ 2^cfg.targetLongBits ∧
    (page*cfg.targetPageSize < start ∨
      start + targetPageAlign cfg len ≤ page*cfg.targetPageSize)

theorem targetMprotect_keeps {done : Bool} (h : cfg.PageInit)
    (hstart : start < 2^cfg.targetLongBits)
    (hapart : start%cfg.targetPageSize = 0 → Apart cfg start len page)
    (hclass : ¬ MprotectClash cfg a start len prot page)
    (hrun : targetMprotect cfg host a start len prot = some (b,done)) : Keeps cfg a b page := by
  unfold targetMprotect at hrun
  dsimp only at hrun
  split at hrun
  · cases hrun
    exact Keeps.refl cfg a page
  rename_i hlegal
  rw [not_or,not_not] at hlegal
  split at hrun
  · cases hrun
    exact Keeps.refl cfg a page
  rename_i hnone
  obtain ⟨hhost,hflags⟩ := perform_some hrun
  obtain ⟨hhost,-⟩ := Prod.mk.inj hhost
  have halign := dvd_of_mod_eq_zero hlegal.1
  have hout := (hapart hlegal.1).2
  have hlen : targetPageAlign cfg len < 2^cfg.targetLongBits := mod_lt _ (Nat.two_pow_pos _)
  have hstop : cfg.abi (start + targetPageAlign cfg len) < 2^cfg.targetLongBits :=
    mod_lt _ (Nat.two_pow_pos _)
  have hsum := abi_add_eq hstart hlen hlegal.2
  have hlt : start < cfg.abi (start + targetPageAlign cfg len) := by omega
  refine ⟨?_,?_⟩
  · cases done with
    | false => exact congrFun hflags page
    | true =>
      rw [hflags page,if_neg]
      rw [inRange_iff_of_dvd halign]
      omega
  · rw [hhost]
    apply (KeepsHost.refl cfg _ _ page).runCalls h.paged
    by_cases hgap : hostStart cfg start < start ∧
        hostStart cfg start + cfg.hostPageSize = 2^cfg.targetLongBits ∧
        hostBlock cfg page = hostStart cfg start ∧ start ≤ page*cfg.targetPageSize
    · rw [show pageGetFlags a = a.flags from rfl,mprotectCalls_last h hlt hstop hgap.1 hgap.2.1]
      intro call hcall
      rw [List.mem_singleton.mp hcall]
      intro hostPage hover _ i hi hgrow
      by_contra hlost
      exact hclass ⟨hlegal.1,hnone,hlt,hgap.1,hgap.2.1,hgap.2.2.1,hgap.2.2.2,hostPage,
        hover,i,hi,hgrow,Bool.eq_false_iff.mpr hlost⟩
    · refine mprotectCalls_spares h ?_ hlt hstop (by omega) fun hins hlast hblock => ?_
      · rw [hsum]
        exact Nat.dvd_add halign (targetPageAlign_dvd h len)
      · by_contra hbehind
        exact hgap ⟨hins,hlast,hblock,Nat.le_of_not_lt hbehind⟩

theorem targetMunmap_keeps {done : Bool} (h : cfg.PageInit) (hstart : start < 2^cfg.targetLongBits)
    (hmap : a.flags page ≠ 0) (hapart : start%cfg.targetPageSize = 0 → Apart cfg start len page)
    (hrun : targetMunmap cfg host a start len = some (b,done)) : Keeps cfg a b page := by
  unfold targetMunmap at hrun
  dsimp only at hrun
  split at hrun
  · cases hrun
    exact Keeps.refl cfg a page
  rename_i hlegal
  rw [not_or,not_not] at hlegal
  have halign := dvd_of_mod_eq_zero hlegal.1
  obtain ⟨hfits,hout⟩ := hapart hlegal.1
  obtain ⟨⟨mid,done'⟩,hperform,hb⟩ := Option.map_eq_some_iff.mp hrun
  suffices hmid : Keeps cfg a mid page by
    cases done' with
    | false =>
      cases hb
      exact hmid
    | true =>
      cases hb
      exact ⟨hmid.flags,hmid.host.mem,hmid.host.rights⟩
  obtain ⟨hhost,hflags⟩ := perform_some hperform
  obtain ⟨hhost,hdone⟩ := Prod.mk.inj hhost
  have hlt : start < cfg.abi (start + targetPageAlign cfg len) := by
    rcases Nat.lt_or_eq_of_le hfits with hless | heq
    · rw [Config.abi,mod_eq_of_lt hless]
      omega
    · have hz : cfg.abi (start + targetPageAlign cfg len) = 0 := by
        rw [heq,Config.abi,mod_self]
      have hnone : munmapCalls cfg (pageGetFlags a) start 0 = [] := by
        have hend : (trimRange cfg (pageGetFlags a) start 0).2 = 0 := by
          have halias : hostPageAlign cfg 0 = 0 :=
            hostPageAlign_of_dvd h (Nat.dvd_zero _) (Nat.two_pow_pos _)
          exact iteInduction (motive := (· = 0)) (fun _ => by rw [halias,Nat.zero_sub]) fun _ =>
              halias
        unfold munmapCalls
        dsimp only
        rw [hend,if_neg (Nat.not_lt_zero _)]
      rw [hz,hnone] at hdone hperform
      rw [show done' = true from hdone] at hperform
      have := perform_lt hperform
      omega
  have hstop : cfg.abi (start + targetPageAlign cfg len) < 2^cfg.targetLongBits :=
    mod_lt _ (Nat.two_pow_pos _)
  have hsum : cfg.abi (start + targetPageAlign cfg len) = start + targetPageAlign cfg len :=
    abi_add_eq hstart (mod_lt _ (Nat.two_pow_pos _)) (Nat.not_lt.mpr hlt.le)
  refine ⟨?_,?_⟩
  · cases done' with
    | false => exact congrFun hflags page
    | true =>
      rw [hflags page,if_neg]
      rw [inRange_iff_of_dvd halign]
      omega
  · rw [hhost]
    apply (KeepsHost.refl cfg _ _ page).runCalls h.paged
    refine munmapCalls_spares h ?_ hlt hstop (by omega) hmap
    rw [hsum]
    exact Nat.dvd_add halign (targetPageAlign_dvd h len)

def MmapClash (cfg : Config) (a : AddressSpace) (request : MmapRequest) (page : Nat) : Prop :=
  ∃ len, Admitted cfg request len ∧
    if Reads cfg request then
      Clash cfg a request.start len (request.prot ||| pageWrite) false (fun _ => none) page
    else
      Clash cfg a request.start len request.prot request.shared
        (fun i => request.file (cfg.abi (request.offset+i))) page

variable {request : MmapRequest}

theorem hostPageSize_eq (h : cfg.PageInit) {x : Nat} (hlen : mmapLen cfg request = some len)
    (halign : cfg.targetPageSize ∣ x) (hshared : ¬ cfg.hostPageSize ∣ x) :
    len = targetPageAlign cfg request.len := by
  have hreal : ¬ cfg.realHostPageSize < cfg.targetPageSize := by
    intro hlt
    apply hshared
    rwa [h.host,max_eq_right hlt.le]
  unfold mmapLen at hlen
  rw [if_neg fun hand => hreal hand.1] at hlen
  exact (Option.some.inj hlen).symm

theorem not_dvd_of_hostStart_lt (h : hostStart cfg start < start) : ¬ cfg.hostPageSize ∣ start :=
  fun hdvd => absurd (hostStart_of_dvd hdvd) (Nat.ne_of_lt h)

theorem targetPageAlign_of_dvd {n : Nat} (hdvd : cfg.targetPageSize ∣ n)
    (hn : n < 2^cfg.targetLongBits) : targetPageAlign cfg n = n := by
  obtain ⟨k,rfl⟩ := hdvd
  have hpos := targetPageSize_pos cfg
  have hdiv : (cfg.targetPageSize*k+cfg.targetPageSize-1) / cfg.targetPageSize = k := by
    rw [Nat.add_sub_assoc hpos,mul_add_div hpos,div_eq_of_lt (by omega),Nat.add_zero]
  rw [targetPageAlign,hdiv,Nat.mul_comm k,Config.abi,mod_eq_of_lt hn]

theorem Admitted.reads (h : cfg.PageInit) (hadmitted : Admitted cfg request len)
    (hreads : Reads cfg request) :
    len = targetPageAlign cfg request.len ∧ targetPageAlign cfg len = len := by
  have hlen : len = targetPageAlign cfg request.len := by
    by_cases hdvd : cfg.hostPageSize ∣ request.start
    · refine hostPageSize_eq h hadmitted.cut (dvd_of_mod_eq_zero hadmitted.offset) fun hoff =>
        hreads.2 ?_
      rw [mod_eq_zero_of_dvd hdvd,mod_eq_zero_of_dvd hoff]
    · exact hostPageSize_eq h hadmitted.cut (dvd_of_mod_eq_zero hadmitted.start) hdvd
  refine ⟨hlen,?_⟩
  rw [hlen]
  exact targetPageAlign_of_dvd (targetPageAlign_dvd h _) (mod_lt _ (Nat.two_pow_pos _))

theorem readFile_keeps {file : FileMap} (h : cfg.PageInit) (hstart : start < 2^cfg.targetLongBits)
    (halign : cfg.targetPageSize ∣ start) (hlen : targetPageAlign cfg len = len)
    (hfits : start+len ≤ 2^cfg.targetLongBits)
    (hout : page*cfg.targetPageSize < start ∨ start+len ≤ page*cfg.targetPageSize)
    (hlast : start < cfg.abi (start+len) → hostStart cfg start < start →
      hostStart cfg start + cfg.hostPageSize = 2^cfg.targetLongBits →
        hostBlock cfg page ≠ hostStart cfg start)
    (hrun : readFile cfg host a start len prot file = some (b,result)) : Keeps cfg a b page := by
  have hread : KeepsHost cfg (a.flags page) a.toHostMem
      (runCalls cfg host [.pread start (start+len) file] a.toHostMem).1 page := by
    apply (KeepsHost.refl cfg _ _ page).runCalls h.paged
    intro call hcall
    rw [List.mem_singleton.mp hcall]
    rintro x hx ⟨hle,hlt⟩
    have hpos := targetPageSize_pos cfg
    have hxlow : page*cfg.targetPageSize ≤ x := hx ▸ div_mul_le_self x _
    have hxhigh : x < page*cfg.targetPageSize+cfg.targetPageSize := hx ▸ lt_div_mul_add hpos
    rcases hout with hout | hout
    · have := add_le_of_lt (Nat.dvd_mul_left _ page) halign hout
      omega
    · omega
  unfold readFile at hrun
  split at hrun
  · rename_i m hm
    cases hrun
    rw [show hostMem a = a.toHostMem from rfl] at hm
    rw [hm] at hread
    exact ⟨rfl,hread⟩
  · rename_i m hm
    rw [show hostMem a = a.toHostMem from rfl] at hm
    rw [hm] at hread
    have hmid : Keeps cfg a (Paging.setHost a m) page := ⟨rfl,hread⟩
    split at hrun
    · obtain ⟨⟨b',done⟩,hprotect,hb⟩ := Option.map_eq_some_iff.mp hrun
      cases hb
      apply hmid.trans
      refine targetMprotect_keeps h hstart (fun _ => ⟨?_,?_⟩) (fun hclass => ?_) hprotect
      · rwa [hlen]
      · rwa [hlen]
      · exact hlast (hlen ▸ hclass.fits) hclass.inside hclass.last hclass.block
    · cases hrun
      exact hmid

theorem targetMmap_keeps (h : cfg.PageInit) (hfixed : request.fixed = true)
    (hstart : request.start < 2^cfg.targetLongBits) (hmap : a.flags page ≠ 0)
    (hapart : request.start%cfg.targetPageSize = 0 →
      Apart cfg request.start request.len page) (hclass : ¬ MmapClash cfg a request page)
    (hrun : targetMmap cfg host a request = some (b,result)) : Keeps cfg a b page := by
  unfold targetMmap at hrun
  dsimp only at hrun
  split at hrun
  · cases hrun
    exact Keeps.refl cfg a page
  rename_i hoffs
  rw [not_not] at hoffs
  split at hrun
  · cases hrun
    exact Keeps.refl cfg a page
  rename_i hnone
  split at hrun
  · cases hrun
    exact Keeps.refl cfg a page
  rename_i len hlen
  rw [hfixed,if_neg (by decide)] at hrun
  split at hrun
  · cases hrun
    exact Keeps.refl cfg a page
  rename_i hlegal
  rw [not_or,not_not] at hlegal
  have halign := dvd_of_mod_eq_zero hlegal.1
  obtain ⟨hfits,hout⟩ := hapart hlegal.1
  have houtside : len = targetPageAlign cfg request.len → Outside cfg request.start len page := by
    rintro rfl
    exact ⟨hfits,Nat.pos_of_ne_zero hnone,halign,hout⟩
  have hshared : hostStart cfg request.start < request.start →
      Outside cfg request.start len page := fun hins =>
    houtside (hostPageSize_eq h hlen halign (not_dvd_of_hostStart_lt hins))
  split at hrun
  · rename_i hreads
    split at hrun
    · cases hrun
      exact Keeps.refl cfg a page
    rename_i href
    have hadmitted : Admitted cfg request len := ⟨hoffs,hnone,hlen,hlegal.1,hlegal.2,fun _ => href⟩
    have hclash' : ¬ Clash cfg a request.start len (request.prot ||| pageWrite) false
        (fun _ => none) page := fun hc => hclass ⟨len,hadmitted,by rwa [if_pos (show Reads cfg
            request from hreads)]⟩
    obtain ⟨hlen',halias⟩ := hadmitted.reads h hreads
    obtain ⟨⟨mid,mapped⟩,hmid,hread⟩ := Option.bind_eq_some_iff.mp hrun
    unfold mmapAnonymous at hmid
    rw [halias,if_neg (hlen' ▸ hnone),if_neg hlegal.2] at hmid
    have hkeeps := mmapFixed_keeps h hstart (fun _ => rfl) hmap hshared hclash' hmid
    dsimp only at hread
    split at hread
    · refine hkeeps.trans (readFile_keeps h hstart halign halias (hlen' ▸ hfits) (hlen' ▸ hout)
        (fun hlt hins hlast heq => ?_) hread)
      exact hclash' (.last hins hlast heq (.inl hlt))
    · cases hread
      exact hkeeps
  · rename_i hreads
    have hadmitted : Admitted cfg request len := ⟨hoffs,hnone,hlen,hlegal.1,hlegal.2,fun hr =>
        absurd hr hreads⟩
    refine mmapFixed_keeps h hstart (fun i => ?_) hmap hshared (fun hc => ?_) hrun
    · unfold MmapRequest.file
      split <;> rfl
    · exact hclass ⟨len,hadmitted,by rwa [if_neg (show ¬ Reads cfg request from hreads)]⟩

structure AgreeAt (x : Nat) (a b : AddressSpace) : Prop where
  host : Agree x a.toHostMem b.toHostMem
  flags : a.flags = b.flags

variable {x : Nat}

theorem perform_agree (host : Kernel) (calls : List HostCall) (stop flags : Nat)
    (hflags : a.flags = b.flags)
    (hok : (runCalls cfg host calls a.toHostMem).2 = (runCalls cfg host calls b.toHostMem).2)
    (hagree : Agree x (runCalls cfg host calls a.toHostMem).1
      (runCalls cfg host calls b.toHostMem).1)
    (hret : (runCalls cfg host calls a.toHostMem).2 = true → start < cfg.abi stop) :
    ∃ a' b' done, perform cfg host a calls start stop flags = some (a',done) ∧
      perform cfg host b calls start stop flags = some (b',done) ∧ AgreeAt x a' b' := by
  unfold perform
  rcases hrun : runCalls cfg host calls a.toHostMem with ⟨m,done⟩
  rcases hrun' : runCalls cfg host calls b.toHostMem with ⟨m',done'⟩
  rw [hrun,hrun'] at hagree hok
  rw [hrun] at hret
  cases (show done = done' from hok)
  cases done with
  | false => exact ⟨_,_,false,rfl,rfl,hagree,hflags⟩
  | true =>
    have hsets : ∀ c : AddressSpace, Paging.pageSetFlags cfg c start stop flags =
        some { c with
          flags := fun p => if inRange cfg start stop p then storedFlags flags else c.flags p } :=
      fun c => if_neg (Nat.not_le.mpr (hret rfl))
    dsimp only
    rw [hsets,hsets]
    refine ⟨_,_,true,rfl,rfl,hagree,?_⟩
    exact congrArg (fun f : Nat → Nat => fun p =>
      if inRange cfg start stop p then storedFlags flags else f p) hflags

theorem AgreeAt.targetMprotect (host : Kernel) (prot : Nat) (h : AgreeAt x a b)
    (hlt : start < cfg.abi (start + targetPageAlign cfg len)) :
    ∃ a' b' done, Exec.targetMprotect cfg host a start len prot = some (a',done) ∧
      Exec.targetMprotect cfg host b start len prot = some (b',done) ∧ AgreeAt x a' b' := by
  unfold Exec.targetMprotect
  dsimp only
  split
  · exact ⟨a,b,false,rfl,rfl,h⟩
  split
  · exact ⟨a,b,true,rfl,rfl,h⟩
  rw [show pageGetFlags a = a.flags from rfl,show pageGetFlags b = b.flags from rfl,h.flags]
  exact perform_agree host _ _ _ h.flags (runCalls_prot cfg host h.host.prot _).1
    (h.host.runCalls cfg host _) fun _ => hlt

theorem AgreeAt.readFile {file : FileMap} (h : AgreeAt x a b)
    (hlt : start < cfg.abi (start + targetPageAlign cfg len)) :
    ∃ a' b' result, Exec.readFile cfg host a start len prot file = some (a',result) ∧
      Exec.readFile cfg host b start len prot file = some (b',result) ∧ AgreeAt x a' b' := by
  have hok := (runCalls_prot cfg host h.host.prot [.pread start (start+len) file]).1
  have hagree := h.host.runCalls cfg host [.pread start (start+len) file]
  unfold Exec.readFile
  rcases hrun : runCalls cfg host [.pread start (start+len) file] a.toHostMem with ⟨m,done⟩
  rcases hrun' : runCalls cfg host [.pread start (start+len) file] b.toHostMem with ⟨m',done'⟩
  rw [hrun,hrun'] at hagree hok
  cases (show done = done' from hok)
  have hmid : AgreeAt x (Paging.setHost a m) (Paging.setHost b m') := ⟨hagree,h.flags⟩
  cases done with
  | false => exact ⟨_,_,none,rfl,rfl,hmid⟩
  | true =>
    dsimp only
    split
    · obtain ⟨a',b',done,ha',hb',hlast⟩ := hmid.targetMprotect host prot hlt
      exact ⟨a',b',_,by rw [ha']; rfl,by rw [hb']; rfl,hlast⟩
    · exact ⟨_,_,_,rfl,rfl,hmid⟩

def withMem (a : AddressSpace) (mem : Nat → Option UInt8) : AddressSpace :=
  { a with mem := mem }

theorem mmapFixed_loses (h : cfg.PageInit) (hstart : start < 2^cfg.targetLongBits)
    (hfile : ∀ i, (file i).isSome = (file 0).isSome)
    (hclass : Clash cfg a start len prot shared file page) :
    (∀ mem mem', ∃ b b' result,
      mmapFixed cfg willing (a.withMem mem) start len prot shared file = some (b,result) ∧
      mmapFixed cfg willing (a.withMem mem') start len prot shared file = some (b',result) ∧
      AgreeAt (page*cfg.targetPageSize) b b' ∧
      (result.isSome = true → start < cfg.abi (start+len))) ∨
    inRange cfg start (start+len) page = true ∧ ∀ mem, ∃ b result,
      mmapFixed cfg willing (a.withMem mem) start len prot shared file =
        some (b,result) ∧ b.flags page ≠ a.flags page := by
  rcases hclass.forgets h hstart hfile rfl with hforgets | ⟨hlt,hrange,hflags,hok⟩
  · refine .inl fun mem mem' => ?_
    obtain ⟨hagree,hret⟩ := hforgets (a.withMem mem).toHostMem (a.withMem mem').toHostMem rfl rfl
    have hsame := fun calls => (runCalls_prot cfg willing
      (show (a.withMem mem).prot = (a.withMem mem').prot from rfl) calls).1
    obtain ⟨b,b',done,hb,hb',hlast⟩ := perform_agree (a := a.withMem mem)
      (b := a.withMem mem') willing _ (start+len) (prot ||| pageValid) rfl (hsame _) hagree
      hret
    refine ⟨b,b',if done then some start else none,?_,?_,hlast,fun hsome => ?_⟩
    · exact congrArg (Option.map _) hb
    · exact congrArg (Option.map _) hb'
    · cases done with
      | false => cases hsome
      | true => exact perform_lt hb
  · refine .inr ⟨hrange,fun mem => ?_⟩
    have hdone := hok (a.withMem mem).toHostMem rfl
    obtain ⟨b,-,done,hb,-,-⟩ := perform_agree (x := 0) (a := a.withMem mem)
      (b := a.withMem mem) willing
      (fixedCalls cfg a.flags start (cfg.abi (start+len)) prot shared file) (start+len)
      (prot ||| pageValid) rfl rfl ⟨rfl,rfl⟩ (fun _ => hlt)
    obtain ⟨hhost,hsets⟩ := perform_some hb
    rw [(Prod.mk.inj hhost).2,hdone,if_pos rfl] at hsets
    refine ⟨b,_,congrArg (Option.map _) hb,?_⟩
    rw [hsets,if_pos hrange]
    exact hflags.symm

theorem targetMmap_loses (h : cfg.PageInit) (hfixed : request.fixed = true)
    (hstart : request.start < 2^cfg.targetLongBits)
    (hapart : request.start%cfg.targetPageSize = 0 → Apart cfg request.start request.len page)
    (hclass : MmapClash cfg a request page) :
    (∀ mem mem', ∃ b b' result,
      targetMmap cfg willing (a.withMem mem) request = some (b,result) ∧
      targetMmap cfg willing (a.withMem mem') request = some (b',result) ∧
      AgreeAt (page*cfg.targetPageSize) b b') ∨
    ∀ mem, ∃ b result, targetMmap cfg willing (a.withMem mem) request = some (b,result) ∧
      b.flags page ≠ a.flags page := by
  obtain ⟨len,hadmitted,hclass⟩ := hclass
  have hlegal : ¬ (request.start%cfg.targetPageSize ≠ 0 ∨ tooFar cfg request.start len) :=
    not_or.mpr ⟨not_not.mpr hadmitted.start,hadmitted.fits⟩
  have hrun : ∀ s : AddressSpace, targetMmap cfg willing s request = if Reads cfg request then
        mmapRead cfg willing s request.start len request.prot ⟨request.data,request.offset⟩
      else
        mmapFixed cfg willing s request.start len request.prot request.shared
          fun i => request.file (cfg.abi (request.offset+i)) := by
    intro s
    unfold targetMmap
    rw [if_neg (not_not.mpr hadmitted.offset),if_neg hadmitted.nonempty,hadmitted.cut]
    dsimp only
    rw [hfixed,if_neg (by decide),if_neg hlegal]
    split
    · rename_i hreads
      rw [if_pos (show Reads cfg request from hreads),if_neg (hadmitted.legal hreads)]
    · rename_i hreads
      rw [if_neg (show ¬ Reads cfg request from hreads)]
  by_cases hreads : Reads cfg request
  · rw [if_pos hreads] at hclass
    obtain ⟨hlen,halias⟩ := hadmitted.reads h hreads
    have hanon : ∀ s : AddressSpace, mmapAnonymous cfg willing s request.start len
        (request.prot ||| pageWrite) = mmapFixed cfg willing s request.start len
          (request.prot ||| pageWrite) false fun _ => none := by
      intro s
      unfold mmapAnonymous
      rw [halias,if_neg (hlen ▸ hadmitted.nonempty),if_neg hadmitted.fits]
    rcases mmapFixed_loses h hstart (fun _ => rfl) hclass with hlose | ⟨hrange,-⟩
    · refine .inl fun mem mem' => ?_
      obtain ⟨b,b',result,hb,hb',hagree,hlt⟩ := hlose mem mem'
      simp only [hrun,if_pos hreads,mmapRead,hanon,hb,hb',Option.bind_some]
      split
      · rename_i hmap
        exact hagree.readFile (halias.symm ▸ hlt hmap)
      · exact ⟨b,b',none,rfl,rfl,hagree⟩
    · rw [inRange_iff_of_dvd (dvd_of_mod_eq_zero hadmitted.start),hlen] at hrange
      have := (hapart hadmitted.start).2
      omega
  · rw [if_neg hreads] at hclass
    have hfile : ∀ i, (request.file (cfg.abi (request.offset+i))).isSome =
        (request.file (cfg.abi (request.offset+0))).isSome := by
      intro i
      unfold MmapRequest.file
      split <;> rfl
    simp only [hrun,if_neg hreads]
    rcases mmapFixed_loses h hstart hfile hclass with hlose | ⟨-,hflags⟩
    · refine .inl fun mem mem' => ?_
      obtain ⟨b,b',result,hb,hb',hagree,-⟩ := hlose mem mem'
      exact ⟨b,b',result,hb,hb',hagree⟩
    · exact .inr hflags

theorem targetMprotect_loses (h : cfg.PageInit) (hclass : MprotectClash cfg a start len prot page) :
    ∃ b done, targetMprotect cfg willing a start len prot = some (b,done) ∧
      ¬ Keeps cfg a b page := by
  obtain ⟨hostPage,hover,i,hi,hgrow,hlost⟩ := hclass.lost
  have hpaged := h.paged
  have hstop : cfg.abi (start + targetPageAlign cfg len) < 2^cfg.targetLongBits :=
    mod_lt _ (Nat.two_pow_pos _)
  have hlegal : ¬ (start%cfg.targetPageSize ≠ 0 ∨
      cfg.abi (start + targetPageAlign cfg len) < start) :=
    not_or.mpr ⟨not_not.mpr hclass.aligned,Nat.not_lt.mpr hclass.fits.le⟩
  obtain ⟨b,-,done,hb,-,-⟩ := perform_agree (x := 0) (a := a) (b := a) willing
    (mprotectCalls cfg a.flags start (cfg.abi (start + targetPageAlign cfg len)) (prot &&&
        pageBits))
    (start + targetPageAlign cfg len) ((prot &&& pageBits) ||| pageValid) rfl rfl ⟨rfl,rfl⟩
    (fun _ => hclass.fits)
  refine ⟨b,done,?_,fun hkeeps => ?_⟩
  · unfold targetMprotect
    rw [if_neg hlegal,if_neg hclass.nonempty]
    exact hb
  · have hhost := (Prod.mk.inj (perform_some hb).1).1
    rw [mprotectCalls_last h hclass.fits hstop hclass.inside hclass.last] at hhost
    have hprot : b.prot = Links.mprotect cfg willing.granted a.prot (hostStart cfg start)
        (hostStart cfg start + cfg.hostPageSize)
        (lastProt cfg a.flags start (prot &&& pageBits)) := by
      have := congrArg HostMem.prot hhost
      rw [runCalls_checked rfl] at this
      split at this <;> exact this
    have hreal : cfg.hostPageSize = cfg.realHostPageSize := by
      rw [h.host]
      apply max_eq_left
      by_contra hlt
      refine not_dvd_of_hostStart_lt hclass.inside ?_
      rw [h.host,max_eq_right (Nat.le_of_not_le hlt)]
      exact dvd_of_mod_eq_zero hclass.aligned
    obtain ⟨hlow,hhi⟩ := overlaps_hostBlock hpaged hover
    rw [hclass.block] at hlow hhi
    have hfirst : hostStart cfg start / cfg.realHostPageSize = hostPage := by
      have heq : hostPage*cfg.realHostPageSize = hostStart cfg start :=
        le_antisymm (le_of_lt_add (hreal ▸ Nat.dvd_mul_left _ _) (hostStart_dvd cfg start) hhi) hlow
      rw [← heq,Nat.mul_div_cancel _ hpaged.realPos]
    have hmap : (a.prot hostPage).isSome = true := by
      unfold grants at hgrow
      cases hp : a.prot hostPage with
      | none => rw [hp] at hgrow; cases hgrow
      | some _ => rfl
    have hkeep := hkeeps.host.rights hostPage hover i hi hgrow
    rw [hprot,grants,Links.mprotect] at hkeep
    dsimp only at hkeep
    rw [hfirst,if_pos,Option.any_some,hlost] at hkeep
    · cases hkeep
    refine ⟨le_refl _,by omega,?_⟩
    rw [Nat.add_sub_cancel_left,List.all_eq_true]
    intro k hk
    rw [List.mem_range,Nat.lt_one_iff] at hk
    rw [hk,Nat.add_zero,hmap]
    rfl

end AddressSpace

inductive GuestCall where
  | mmap (request : MmapRequest)
  | munmap (start len : Nat)
  | mprotect (start len prot : Nat)
deriving DecidableEq, Repr

namespace GuestCall

def start : GuestCall → Nat
  | mmap request => request.start
  | munmap start _ => start
  | mprotect start _ _ => start

def len : GuestCall → Nat
  | mmap request => request.len
  | munmap _ len => len
  | mprotect _ len _ => len

def run (cfg : Config) (host : Kernel) (a : AddressSpace) : GuestCall → Option AddressSpace
  | mmap request => (targetMmap cfg host a { request with fixed := true }).map Prod.fst
  | munmap start len => (targetMunmap cfg host a start len).map Prod.fst
  | mprotect start len prot => (targetMprotect cfg host a start len prot).map Prod.fst

/-- Whatever is in the memory and whatever the host does, a call leaves the mapped pages outside
its range as they are. -/
def KeepsOthers (cfg : Config) (a : AddressSpace) (call : GuestCall) : Prop :=
  ∀ mem host b, call.run cfg host (a.withMem mem) = some b → ∀ page, a.flags page ≠ 0 →
    inRange cfg call.start (call.start+call.len) page = false →
      AddressSpace.Keeps cfg (a.withMem mem) b page

def Clashes (cfg : Config) (a : AddressSpace) (page : Nat) : GuestCall → Prop
  | mmap request => AddressSpace.MmapClash cfg a { request with fixed := true } page
  | munmap _ _ => False
  | mprotect start len prot => AddressSpace.MprotectClash cfg a start len prot page

end GuestCall

section

variable {a : AddressSpace} {start len prot page : Nat} {mem : Nat → Option UInt8}

theorem Clash.withMem {shared : Bool} {file : Nat → Option FileMap}
    (h : Clash cfg (a.withMem mem) start len prot shared file page) :
    Clash cfg a start len prot shared file page := by
  cases h with
  | last hins hlast hblock hor => exact .last hins hlast hblock hor
  | tail htail hdone hblock hor => exact .tail htail hdone hblock hor
  | beyond halign hlt hnot hwhat => exact .beyond halign hlt hnot hwhat

theorem AddressSpace.MmapClash.withMem {request : MmapRequest}
    (h : MmapClash cfg (a.withMem mem) request page) : MmapClash cfg a request page := by
  obtain ⟨len,hadmitted,hclass⟩ := h
  refine ⟨len,hadmitted,?_⟩
  split at hclass
  · rw [if_pos ‹_›]
    exact hclass.withMem
  · rw [if_neg ‹_›]
    exact hclass.withMem

theorem AddressSpace.MprotectClash.withMem
    (h : MprotectClash cfg (a.withMem mem) start len prot page) :
    MprotectClash cfg a start len prot page :=
  ⟨h.aligned,h.nonempty,h.fits,h.inside,h.last,h.block,h.behind,h.lost⟩

theorem apart_of_inRange (page : Nat) (h : cfg.PageInit) (hfits : start+len ≤ 2^cfg.targetLongBits)
    (hout : inRange cfg start (start+len) page = false) (halign : start%cfg.targetPageSize = 0) :
    AddressSpace.Apart cfg start len page := by
  have hpos := targetPageSize_pos cfg
  have hdvd := dvd_of_mod_eq_zero halign
  have hspace := h.paged.target.trans h.space
  have hhi := div_mul_le_self (len+cfg.targetPageSize-1) cfg.targetPageSize
  have hround : cfg.targetPageSize ∣
      start + (len+cfg.targetPageSize-1) / cfg.targetPageSize * cfg.targetPageSize :=
    Nat.dvd_add hdvd (Nat.dvd_mul_left _ _)
  have hend := le_of_lt_add hround hspace (by omega)
  rw [Bool.eq_false_iff,Ne,AddressSpace.inRange_iff_of_dvd hdvd] at hout
  unfold AddressSpace.Apart targetPageAlign Config.abi
  by_cases hfull : (len+cfg.targetPageSize-1) / cfg.targetPageSize * cfg.targetPageSize =
      2^cfg.targetLongBits
  · rw [hfull,mod_self]
    omega
  · rw [mod_eq_of_lt (by omega)]
    refine ⟨hend,?_⟩
    by_cases hfront : page*cfg.targetPageSize < start
    · exact .inl hfront
    · exact .inr (le_of_lt_add hround (Nat.dvd_mul_left _ page) (by omega))

end

/-- A call keeps the pages outside its range exactly if it clashes with none that is mapped. -/
theorem keepsOthers_iff (cfg : Config) (h : cfg.PageInit) (a : AddressSpace) (call : GuestCall)
    (hstart : call.start < 2 ^ cfg.targetLongBits)
    (hfits : call.start + call.len ≤ 2 ^ cfg.targetLongBits) :
    call.KeepsOthers cfg a ↔ ∀ page, a.flags page ≠ 0 →
      inRange cfg call.start (call.start + call.len) page = false → ¬ call.Clashes cfg a page := by
  have hapart := fun page hout => apart_of_inRange page h hfits hout
  constructor
  · intro hkeeps page hmap hout hclass
    cases call with
    | munmap start len => exact hclass
    | mprotect start len prot =>
      obtain ⟨b,done,hb,hnot⟩ := AddressSpace.targetMprotect_loses h hclass
      refine hnot (hkeeps a.mem willing b ?_ page hmap hout)
      exact congrArg (Option.map Prod.fst) hb
    | mmap request =>
      have hfixed : ({ request with fixed := true } : MmapRequest).fixed = true := rfl
      rcases AddressSpace.targetMmap_loses h hfixed hstart (hapart page hout) hclass with
        hlose | hflags
      · obtain ⟨b,b',result,hb,hb',hagree⟩ := hlose (fun _ => some 0) fun _ => some 1
        have hpage : page*cfg.targetPageSize/cfg.targetPageSize = page :=
          Nat.mul_div_cancel _ (targetPageSize_pos cfg)
        have hz := (hkeeps _ willing b (congrArg (Option.map Prod.fst) hb) page
          hmap hout).host.mem _ hpage
        have hone := (hkeeps _ willing b' (congrArg (Option.map Prod.fst) hb') page
          hmap hout).host.mem _ hpage
        have := hz.symm.trans (hagree.host.mem.trans hone)
        exact absurd (Option.some.inj this) (by decide)
      · obtain ⟨b,result,hb,hne⟩ := hflags a.mem
        exact hne (hkeeps _ willing b (congrArg (Option.map Prod.fst) hb) page hmap hout).flags
  · intro hclass mem host b hrun page hmap hout
    cases call with
    | munmap start len =>
      obtain ⟨⟨b',done⟩,hb',rfl⟩ := Option.map_eq_some_iff.mp hrun
      exact AddressSpace.targetMunmap_keeps h hstart hmap (hapart page hout) hb'
    | mprotect start len prot =>
      obtain ⟨⟨b',done⟩,hb',rfl⟩ := Option.map_eq_some_iff.mp hrun
      exact AddressSpace.targetMprotect_keeps h hstart (hapart page hout)
        (fun hc => hclass page hmap hout hc.withMem) hb'
    | mmap request =>
      have hfixed : ({ request with fixed := true } : MmapRequest).fixed = true := rfl
      obtain ⟨⟨b',result⟩,hb',rfl⟩ := Option.map_eq_some_iff.mp hrun
      exact AddressSpace.targetMmap_keeps h hfixed hstart hmap (hapart page hout)
        (fun hc => hclass page hmap hout hc.withMem) hb'

def neighbour : AddressSpace where
  prot := fun hostPage => if hostPage = 1 then some 3 else none
  mem := fun _ => some 7
  epoch := fun _ => 0
  flags := fun page => if page = 3 then 0x1b else 0

theorem doubleConfig_pageInit : UserPages.Rights.doubleConfig.PageInit :=
  ⟨⟨13,rfl⟩,rfl,by decide,by decide⟩

theorem keepsOthers_iff_neighbour :
    (GuestCall.munmap 0x2000 0x1000).KeepsOthers UserPages.Rights.doubleConfig neighbour :=
  (keepsOthers_iff _ doubleConfig_pageInit neighbour (.munmap 0x2000 0x1000) (by decide)
    (by decide)).mpr fun _ _ _ hclass => hclass

/-- A mapping of the first half clears the data. -/
theorem mapping_clears_neighbour :
    ∃ b, (GuestCall.mmap (UserPages.anonymousPage 0x2000 3)).run UserPages.Rights.doubleConfig
        UserPages.willing neighbour = some b ∧
      neighbour.mem 0x3000 = some 7 ∧ b.mem 0x3000 = some 0 ∧
      ¬ (GuestCall.mmap (UserPages.anonymousPage 0x2000 3)).KeepsOthers
        UserPages.Rights.doubleConfig neighbour := by
  have hbyte : ((GuestCall.mmap (anonymousPage 0x2000 3)).run
      UserPages.Rights.doubleConfig willing neighbour).map (fun b => b.mem 0x3000) =
        some (some 0) := by decide +kernel
  obtain ⟨b,hrun,hb⟩ := Option.map_eq_some_iff.mp hbyte
  refine ⟨b,hrun,rfl,hb,fun hkeeps => ?_⟩
  have hmem := (hkeeps neighbour.mem willing b hrun 3 (by decide) (by decide)).host.mem
    0x3000 (by decide)
  rw [hb] at hmem
  exact absurd hmem (by decide)

end Hqemu.Exec
