import Hqemu.Exec.MmapFrame

/-! Mappings at a fixed address: the host pages at the ends of the range are shared with other
pages of the guest. -/
namespace Hqemu.Exec

open Bool Nat List

variable {cfg : Config} {host : Kernel} {m : HostMem}

open UserPages

theorem allHost_iff (hpaged : cfg.Paged) {start stop : Nat} {test : Nat → Bool} :
    allHost cfg start stop test = true ↔
      ∀ page, inHost cfg start stop page = true → test page = true := by
  simp only [allHost,List.all_eq_true,mem_range,inHost,and_eq_true,decide_eq_true_eq]
  constructor
  · rintro hall page ⟨hlow,hhi⟩
    have hlast := (lt_ceilDiv hpaged.realPos page stop).mpr hhi
    have := hall (page-start/cfg.realHostPageSize) (by omega)
    rwa [Nat.add_sub_cancel' hlow] at this
  · intro hall i hi
    refine hall _ ⟨Nat.le_add_right _ _,?_⟩
    exact (lt_ceilDiv hpaged.realPos _ stop).mp (by omega)

theorem inHost_mono {start stop start' stop' page : Nat} (hstart : start' ≤ start)
    (hstop : stop ≤ stop') (h : inHost cfg start stop page = true) :
    inHost cfg start' stop' page = true := by
  rw [inHost,and_eq_true,decide_eq_true_eq,decide_eq_true_eq] at h ⊢
  exact ⟨(Nat.div_le_div_right hstart).trans h.1,h.2.trans_le hstop⟩

def readCalls (realStart realEnd prot1 protNew start stop : Nat) (file : FileMap) :
    List HostCall :=
  (if prot1 &&& pageWrite = 0 then [.mprotect realStart realEnd (prot1 ||| pageWrite) false]
    else []) ++
  [.pread start stop file] ++
  if protNew ≠ prot1 ||| pageWrite then [.mprotect realStart realEnd protNew false] else []

theorem runCalls_checked {call : HostCall} {rest : List HostCall} (h : call.checked = true) :
    runCalls cfg host (call :: rest) m =
      if call.succeeds cfg host m.prot then runCalls cfg host rest (runCall cfg host m call)
      else (runCall cfg host m call,false) := by
  rw [runCalls,h,Bool.true_and]
  cases call.succeeds cfg host m.prot <;> rfl

theorem runCalls_mprotect (start stop prot : Nat) (rest : List HostCall) :
    runCalls cfg host (.mprotect start stop prot false :: rest) m = runCalls cfg host rest
        { m with prot := Links.mprotect cfg host.granted m.prot start stop prot } :=
  rfl

theorem readCalls_ok (realStart realEnd prot1 protNew start stop : Nat) (file : FileMap) :
    (runCalls cfg host (readCalls realStart realEnd prot1 protNew start stop file) m).2 =
      allHost cfg start stop fun page => host.granted page && (m.prot page).isSome := by
  have hread : ∀ m : HostMem, (runCalls cfg host ([.pread start stop file] ++
      if protNew ≠ prot1 ||| pageWrite then [.mprotect realStart realEnd protNew false] else [])
        m).2 = allHost cfg start stop fun page => host.granted page && (m.prot page).isSome := by
    intro m
    rw [singleton_append,runCalls_checked rfl]
    change _ = (HostCall.pread start stop file).succeeds cfg host m.prot
    split
    · rename_i hdone
      rw [hdone]
      split <;> rfl
    · rename_i hfail
      exact (eq_false_iff.mpr hfail).symm
  unfold readCalls
  rw [append_assoc]
  split
  · rw [singleton_append,runCalls_mprotect,hread]
    congr 1
    funext page
    rw [mprotect_isSome]
  · exact hread m

section

variable {flagsOf : Nat → Nat} {realStart start stop prot : Nat} {shared : Bool}
  {file : Option FileMap}

/-- A shared mapping that can be written is refused where the file has to be read in. -/
def Refuses (prot : Nat) (shared : Bool) (file : Option FileMap) : Prop :=
  file.isSome = true ∧ shared = true ∧ prot &&& pageWrite ≠ 0

def fragRest (realStart realEnd prot1 prot start stop : Nat) (shared : Bool)
    (file : Option FileMap) : List HostCall :=
  match file with
  | none =>
    if prot ||| prot1 ≠ prot1 then [.mprotect realStart realEnd (prot ||| prot1) false] else []
  | some file =>
    if shared ∧ prot &&& pageWrite ≠ 0 then [.giveUp]
    else readCalls realStart realEnd prot1 (prot ||| prot1) start stop file

theorem mmapFrag_eq : mmapFrag cfg flagsOf realStart start stop prot shared file =
    if orFlags flagsOf (pagesOutside cfg realStart start stop) = 0 then
      .mmap realStart (realStart+cfg.hostPageSize) prot none true ::
        fragRest realStart (realStart+cfg.hostPageSize) (prot &&& pageBits) prot start stop
          shared file
    else
      fragRest realStart (realStart+cfg.hostPageSize)
        (orFlags flagsOf (pagesOutside cfg realStart start stop) &&& pageBits) prot start stop
        shared file := by
  unfold mmapFrag
  dsimp only
  split <;> cases file <;> rfl

theorem fragRest_ok (realEnd prot1 : Nat) :
    (runCalls cfg host (fragRest realStart realEnd prot1 prot start stop shared file) m).2 = true ↔
      file = none ∨ ¬ Refuses prot shared file ∧
        allHost cfg start stop (fun page => host.granted page && (m.prot page).isSome) = true := by
  unfold fragRest Refuses
  cases file with
  | none =>
    refine iff_of_true ?_ (.inl rfl)
    dsimp only
    split <;> rfl
  | some file =>
    dsimp only
    split
    · rename_i href
      refine iff_of_false (fun htrue => ?_) ?_
      · rw [runCalls_giveUp (mem_singleton.mpr rfl)] at htrue
        cases htrue
      · rintro (hnone | hnot)
        · cases hnone
        · exact hnot.1 ⟨rfl,href⟩
    · rename_i hnot
      rw [readCalls_ok]
      refine ⟨fun hall => .inr ⟨fun href => hnot href.2,hall⟩,?_⟩
      rintro (hnone | hall)
      · cases hnone
      · exact hall.2

theorem mem_fragRest {realEnd prot1 : Nat} {call : HostCall}
    (h : call ∈ fragRest realStart realEnd prot1 prot start stop shared file) :
    (∃ more, call = .mprotect realStart realEnd (more ||| prot1) false) ∨
      (∃ data, call = .pread start stop data) ∨ call = .giveUp := by
  unfold fragRest readCalls at h
  split at h
  · exact .inl ⟨prot,eq_of_mem_ite h⟩
  split at h
  · exact .inr (.inr (mem_singleton.mp h))
  rw [mem_append,mem_append] at h
  rcases h with (h | h) | h
  · rw [Nat.or_comm] at h
    exact .inl ⟨pageWrite,eq_of_mem_ite h⟩
  · exact .inr (.inl ⟨_,mem_singleton.mp h⟩)
  · exact .inl ⟨prot,eq_of_mem_ite h⟩

theorem mmapFrag_giveUp (h : Refuses prot shared file) :
    HostCall.giveUp ∈ mmapFrag cfg flagsOf realStart start stop prot shared file := by
  have hrest : ∀ realEnd prot1,
      HostCall.giveUp ∈ fragRest realStart realEnd prot1 prot start stop shared file := by
    intro realEnd prot1
    obtain ⟨file,rfl⟩ := Option.isSome_iff_exists.mp h.1
    unfold fragRest
    dsimp only
    rw [if_pos h.2]
    exact mem_singleton.mpr rfl
  rw [mmapFrag_eq]
  split
  · exact mem_cons_of_mem _ (hrest _ _)
  · exact hrest _ _

theorem allHost_fresh (hpaged : cfg.Paged) (m : HostMem) (prot : Nat) (hlow : realStart ≤ start)
    (hhi : stop ≤ realStart+cfg.hostPageSize)
    (hgrant : allHost cfg realStart (realStart+cfg.hostPageSize) host.granted = true) :
    allHost cfg start stop (fun page => host.granted page &&
      (setRange cfg m.prot realStart (realStart+cfg.hostPageSize) (some prot) page).isSome) =
        true := by
  rw [allHost_iff hpaged] at hgrant ⊢
  intro page hin
  have hin' := inHost_mono hlow hhi hin
  dsimp only [setRange]
  rw [hgrant page hin',if_pos hin']
  rfl

theorem mmapFrag_fresh (host : Kernel) (m : HostMem) (hpaged : cfg.Paged) (hlow : realStart ≤ start)
    (hhi : stop ≤ realStart+cfg.hostPageSize) (href : ¬ Refuses prot shared file)
    (hfresh : orFlags flagsOf (pagesOutside cfg realStart start stop) = 0) :
    (runCalls cfg host (mmapFrag cfg flagsOf realStart start stop prot shared file) m).2 = true ∨
      (runCalls cfg host (mmapFrag cfg flagsOf realStart start stop prot shared file) m).1 = m := by
  rw [mmapFrag_eq,if_pos hfresh,runCalls_checked rfl]
  split
  · rename_i hdone
    left
    rw [fragRest_ok]
    refine .inr ⟨href,?_⟩
    rw [runCall_mmap hdone]
    rw [HostCall.succeeds,and_eq_true,and_eq_true] at hdone
    exact allHost_fresh hpaged m prot hlow hhi hdone.1.2
  · rename_i hfail
    right
    exact if_neg hfail

theorem mmapFrag_ok (hpaged : cfg.Paged) (hlow : realStart ≤ start)
    (hhi : stop ≤ realStart+cfg.hostPageSize) :
    (runCalls cfg host (mmapFrag cfg flagsOf realStart start stop prot shared file) m).2 = true ↔
      if orFlags flagsOf (pagesOutside cfg realStart start stop) = 0 then
        allHost cfg realStart (realStart+cfg.hostPageSize) host.granted = true ∧
          ¬ Refuses prot shared file
      else file = none ∨ ¬ Refuses prot shared file ∧
        allHost cfg start stop (fun page => host.granted page && (m.prot page).isSome) = true := by
  have hpos := hpaged.hostPos
  rw [mmapFrag_eq]
  split
  · rw [runCalls_checked rfl]
    split
    · rename_i hdone
      rw [fragRest_ok,runCall_mmap hdone]
      rw [HostCall.succeeds,and_eq_true,and_eq_true] at hdone
      have hall := allHost_fresh hpaged m prot hlow hhi hdone.1.2
      constructor
      · rintro (rfl | hnot)
        · exact ⟨hdone.1.2,fun href => by cases href.1⟩
        · exact ⟨hdone.1.2,hnot.1⟩
      · exact fun hnot => .inr ⟨hnot.2,hall⟩
    · rename_i hfail
      refine iff_of_false (fun hfalse => by cases hfalse) fun hnot => hfail ?_
      rw [HostCall.succeeds,and_eq_true,and_eq_true,decide_eq_true_eq]
      exact ⟨⟨by omega,hnot.1⟩,rfl⟩
  · rw [fragRest_ok]

theorem mmapFrag_spares (h : cfg.PageInit) {hostProt : Nat → Option Nat} {page : Nat}
    (hdvd : cfg.hostPageSize ∣ realStart) (hlow : realStart ≤ start)
    (hhi : stop ≤ realStart+cfg.hostPageSize) (hmap : flagsOf page ≠ 0)
    (hout : hostBlock cfg page = realStart →
      realStart+cfg.hostPageSize < 2^cfg.targetLongBits ∧
        (page*cfg.targetPageSize+cfg.targetPageSize ≤ start ∨ stop ≤ page*cfg.targetPageSize)) :
    ∀ call ∈ mmapFrag cfg flagsOf realStart start stop prot shared file,
      call.Spares cfg (flagsOf page) hostProt page := by
  have hpaged := h.paged
  have hpos := targetPageSize_pos cfg
  have hblock := hostBlock_le cfg page
  have hblock' := lt_hostBlock hpaged page
  have hnext : cfg.hostPageSize ∣ realStart+cfg.hostPageSize := Nat.dvd_add hdvd (Nat.dvd_refl _)
  have hother : hostBlock cfg page ≠ realStart → ∀ hostPage, overlaps cfg hostPage page = true →
      inHost cfg realStart (realStart+cfg.hostPageSize) hostPage = false := by
    intro hne hostPage hover
    rw [eq_false_iff,Ne,inHost_iff hpaged hdvd hnext hover]
    exact fun hin => hne (le_antisymm (le_of_lt_add (hostBlock_dvd cfg page) hdvd hin.2) hin.1)
  have hpread : ∀ x, x/cfg.targetPageSize = page → ¬ (start ≤ x ∧ x < stop) := by
    rintro x hx ⟨hle,hlt⟩
    have hxlow : page*cfg.targetPageSize ≤ x := hx ▸ div_mul_le_self x _
    have hxhigh : x < page*cfg.targetPageSize+cfg.targetPageSize := hx ▸ lt_div_mul_add hpos
    have heq : hostBlock cfg page = realStart :=
      le_antisymm (le_of_lt_add (hostBlock_dvd cfg page) hdvd (by omega))
        (le_of_lt_add hdvd (hostBlock_dvd cfg page) (by omega))
    omega
  have hmprotect : ∀ prot' checked, (hostBlock cfg page = realStart →
      ∀ i, (flagsOf page &&& pageBits).testBit i = true → prot'.testBit i = true) →
      (HostCall.mprotect realStart (realStart+cfg.hostPageSize) prot' checked).Spares cfg
        (flagsOf page) hostProt page := by
    intro prot' checked hbits hostPage hover hin i hi _
    by_cases heq : hostBlock cfg page = realStart
    · exact hbits heq i hi
    · rw [hother heq hostPage hover] at hin
      cases hin
  have hrest : ∀ prot1, (hostBlock cfg page = realStart →
      ∀ i, (flagsOf page &&& pageBits).testBit i = true → prot1.testBit i = true) →
      ∀ call ∈ fragRest realStart (realStart+cfg.hostPageSize) prot1 prot start stop shared file,
        call.Spares cfg (flagsOf page) hostProt page := by
    intro prot1 hbits call hcall
    rcases mem_fragRest hcall with ⟨more,rfl⟩ | ⟨data,rfl⟩ | rfl
    · refine hmprotect _ _ fun heq i hi => ?_
      rw [testBit_or,hbits heq i hi,Bool.or_true]
    · exact hpread
    · trivial
  intro call hcall
  rw [mmapFrag_eq] at hcall
  by_cases heq : hostBlock cfg page = realStart
  · obtain ⟨hfit,hside⟩ := hout heq
    have hmem : page ∈ pagesOutside cfg realStart start stop := by
      rw [mem_pagesOutside h hdvd hfit,Nat.add_mul]
      exact ⟨heq,by omega⟩
    rw [if_neg (orFlags_ne_zero hmem hmap)] at hcall
    refine hrest _ (fun _ i hi => ?_) call hcall
    rw [testBit_and,and_eq_true] at hi ⊢
    exact ⟨testBit_orFlags_of_mem hmem hi.1,hi.2⟩
  · have hbits : ∀ prot1 : Nat, hostBlock cfg page = realStart →
        ∀ i, (flagsOf page &&& pageBits).testBit i = true → prot1.testBit i = true :=
      fun _ hsame => absurd hsame heq
    split at hcall
    · rcases mem_cons.mp hcall with rfl | hcall
      · exact hother heq
      · exact hrest _ (hbits _) call hcall
    · exact hrest _ (hbits _) call hcall

end

def HasTail (cfg : Config) (start stop : Nat) : Prop :=
  stop < hostPageAlign cfg stop ∧ ¬ Single cfg start stop

def HeadDone (cfg : Config) (a : AddressSpace) (start prot : Nat) (shared : Bool)
    (file : Option FileMap) : Prop :=
  hostStart cfg start < start → file = none ∨ ¬ Refuses prot shared file ∧
    (orFlags a.flags (pagesOutside cfg (hostStart cfg start) start
      (hostStart cfg start + cfg.hostPageSize)) = 0 ∨
      allHost cfg start (hostStart cfg start + cfg.hostPageSize)
        (fun page => (a.prot page).isSome) = true)

inductive Clash (cfg : Config) (a : AddressSpace) (start len prot : Nat) (shared : Bool)
    (file : Nat → Option FileMap) (page : Nat) : Prop
  /-- On the last host page of the address space no other pages are seen. -/
  | last : hostStart cfg start < start →
      hostStart cfg start + cfg.hostPageSize = 2^cfg.targetLongBits →
      hostBlock cfg page = hostStart cfg start →
      start < cfg.abi (start+len) ∨ Refuses prot shared (file 0) →
      Clash cfg a start len prot shared file page
  /-- The host page of the end is mapped as if it had no other pages. -/
  | tail : HasTail cfg start (cfg.abi (start+len)) →
      HeadDone cfg a start prot shared (file 0) →
      hostBlock cfg page = hostPageAlign cfg (cfg.abi (start+len)) - cfg.hostPageSize →
      start < cfg.abi (start+len) ∨ Refuses prot shared (file 0) →
      Clash cfg a start len prot shared file page
  /-- More is mapped than was asked for, because the file ends before the offset. -/
  | beyond : hostStart cfg start = start → start < cfg.abi (start+len) →
      ¬ (HasTail cfg start (cfg.abi (start+len)) ∧ Refuses prot shared (file 0)) →
      (start ≤ hostBlock cfg page ∧ hostBlock cfg page < middleEnd cfg (cfg.abi (start+len)) ∨
        inRange cfg start (start+len) page = true ∧
          a.flags page ≠ storedFlags (prot ||| pageValid)) →
      Clash cfg a start len prot shared file page

section

variable {flagsOf : Nat → Nat} {start stop len prot page : Nat} {shared : Bool}
  {file : Nat → Option FileMap} {a b : AddressSpace}

theorem fixedCalls_eq (flagsOf : Nat → Nat) (start stop prot : Nat) (shared : Bool)
    (file : Nat → Option FileMap) :
    fixedCalls cfg flagsOf start stop prot shared file = if Single cfg start stop then
        mmapFrag cfg flagsOf (hostStart cfg start) start stop prot shared (file 0)
      else
        (if hostStart cfg start < start then
          mmapFrag cfg flagsOf (hostStart cfg start) start
            (hostStart cfg start + cfg.hostPageSize) prot shared (file 0) else []) ++
        (if stop < hostPageAlign cfg stop then
          mmapFrag cfg flagsOf (hostPageAlign cfg stop - cfg.hostPageSize)
            (hostPageAlign cfg stop - cfg.hostPageSize) (hostPageAlign cfg stop) prot shared
            (file (hostPageAlign cfg stop - cfg.hostPageSize - start)) else []) ++
        if middleStart cfg start < middleEnd cfg stop then
          [.mmap (middleStart cfg start) (middleEnd cfg stop) prot
            (file (middleStart cfg start - start)) true]
        else [] :=
  rfl

theorem refuses_congr {other : Option FileMap} (h : other.isSome = (file 0).isSome) :
    Refuses prot shared other ↔ Refuses prot shared (file 0) := by
  unfold Refuses
  rw [h]

section

variable (h : cfg.PageInit)
include h

theorem hostPageAlign_tail (hstop : stop < 2^cfg.targetLongBits)
    (htail : stop < hostPageAlign cfg stop) :
    hostPageAlign cfg stop - cfg.hostPageSize + cfg.hostPageSize = hostPageAlign cfg stop := by
  obtain ⟨hre,-⟩ := hostPageAlign_spec h.space hstop
  have := add_le_of_lt (Nat.dvd_zero cfg.hostPageSize) hre (by omega)
  omega

theorem pagesOutside_whole {realStart : Nat} (hdvd : cfg.hostPageSize ∣ realStart)
    (hfit : realStart+cfg.hostPageSize < 2^cfg.targetLongBits) :
    pagesOutside cfg realStart realStart (realStart+cfg.hostPageSize) = [] := by
  rw [eq_nil_iff_forall_not_mem]
  intro page hmem
  rw [mem_pagesOutside h hdvd hfit,Nat.add_mul] at hmem
  have hblock := hostBlock_le cfg page
  have hblock' := lt_hostBlock h.paged page
  omega

theorem tail_fresh (flagsOf : Nat → Nat)
    (hstop : stop < 2^cfg.targetLongBits) (htail : stop < hostPageAlign cfg stop) :
    orFlags flagsOf (pagesOutside cfg (hostPageAlign cfg stop - cfg.hostPageSize)
      (hostPageAlign cfg stop - cfg.hostPageSize) (hostPageAlign cfg stop)) = 0 := by
  obtain ⟨hre,-⟩ := hostPageAlign_spec h.space hstop
  have hend := hostPageAlign_tail h hstop htail
  have hnone := pagesOutside_whole h (Nat.dvd_sub hre (Nat.dvd_refl cfg.hostPageSize))
    (hend.symm ▸ hostPageAlign_lt cfg stop)
  rw [hend] at hnone
  rw [hnone]
  rfl

theorem tail_eq {file : Option FileMap}
    (hstop : stop < 2^cfg.targetLongBits) (htail : stop < hostPageAlign cfg stop) :
    mmapFrag cfg flagsOf (hostPageAlign cfg stop - cfg.hostPageSize)
        (hostPageAlign cfg stop - cfg.hostPageSize) (hostPageAlign cfg stop) prot shared file =
      .mmap (hostPageAlign cfg stop - cfg.hostPageSize)
          (hostPageAlign cfg stop - cfg.hostPageSize + cfg.hostPageSize) prot none true ::
        fragRest (hostPageAlign cfg stop - cfg.hostPageSize)
          (hostPageAlign cfg stop - cfg.hostPageSize + cfg.hostPageSize) (prot &&& pageBits) prot
          (hostPageAlign cfg stop - cfg.hostPageSize) (hostPageAlign cfg stop) shared file := by
  rw [mmapFrag_eq,if_pos (tail_fresh h flagsOf hstop htail)]

theorem Single.stop_le (hstart : start < 2^cfg.targetLongBits) (hstop : stop < 2^cfg.targetLongBits)
    (hsingle : Single cfg start stop) : stop ≤ hostStart cfg start + cfg.hostPageSize := by
  rcases Nat.lt_or_eq_of_le (hostStart_fits h hstart) with hfit | hlast
  · have hend := hsingle.2
    rw [hostLong_of_lt h hfit] at hend
    have hpos := h.paged.hostPos
    rcases (hostPageAlign_spec h.space hstop).2 with ⟨hle,-⟩ | ⟨hz,-⟩ <;> omega
  · exact hlast ▸ hstop.le

theorem tail_spares {hostProt : Nat → Option Nat} {file : Option FileMap}
    (hstop : stop < 2^cfg.targetLongBits) (htail : stop < hostPageAlign cfg stop)
    (hmap : flagsOf page ≠ 0)
    (hne : hostBlock cfg page ≠ hostPageAlign cfg stop - cfg.hostPageSize) :
    ∀ call ∈ mmapFrag cfg flagsOf (hostPageAlign cfg stop - cfg.hostPageSize)
        (hostPageAlign cfg stop - cfg.hostPageSize) (hostPageAlign cfg stop) prot shared file,
      call.Spares cfg (flagsOf page) hostProt page := by
  obtain ⟨hre,-⟩ := hostPageAlign_spec h.space hstop
  exact mmapFrag_spares h (Nat.dvd_sub hre (Nat.dvd_refl _)) (le_refl _)
    (hostPageAlign_tail h hstop htail).ge hmap fun heq => absurd heq hne

structure Outside (cfg : Config) (start len page : Nat) : Prop where
  fits : start+len ≤ 2^cfg.targetLongBits
  pos : 0 < len
  aligned : cfg.targetPageSize ∣ start
  page : page*cfg.targetPageSize < start ∨ start+len ≤ page*cfg.targetPageSize

theorem head_spares {hostProt : Nat → Option Nat} {file : Option FileMap}
    (hdvd : cfg.targetPageSize ∣ start) (hstart : start < 2^cfg.targetLongBits)
    (hmap : flagsOf page ≠ 0) (hstop : stop ≤ hostStart cfg start + cfg.hostPageSize)
    (hlast : hostStart cfg start + cfg.hostPageSize = 2^cfg.targetLongBits →
      hostBlock cfg page ≠ hostStart cfg start)
    (hout : hostBlock cfg page = hostStart cfg start → page*cfg.targetPageSize < start ∨
      stop ≤ page*cfg.targetPageSize) :
    ∀ call ∈ mmapFrag cfg flagsOf (hostStart cfg start) start stop prot shared file,
      call.Spares cfg (flagsOf page) hostProt page := by
  refine mmapFrag_spares h (hostStart_dvd cfg start) (hostStart_le cfg start) hstop hmap
    fun heq => ⟨?_,?_⟩
  · exact Nat.lt_of_le_of_ne (hostStart_fits h hstart) fun hsame => hlast hsame heq
  · rcases hout heq with hless | hle
    · exact .inl (add_le_of_lt (Nat.dvd_mul_left _ page) hdvd hless)
    · exact .inr hle

section

variable (hstart : start < 2 ^ cfg.targetLongBits) (hfile : ∀ i, (file i).isSome = (file 0).isSome)
  (hmap : a.flags page ≠ 0) (hout : hostStart cfg start < start → Outside cfg start len page)
  (hclass : ¬ Clash cfg a start len prot shared file page)
include hstart hfile hmap hout hclass

theorem fixedCalls_keeps_of_lt (hlt : start < cfg.abi (start+len)) :
    KeepsHost cfg (a.flags page) a.toHostMem (runCalls cfg host
      (fixedCalls cfg a.flags start (cfg.abi (start+len)) prot shared file) a.toHostMem).1
      page := by
  have hpaged := h.paged
  have hstop : cfg.abi (start+len) < 2^cfg.targetLongBits := mod_lt _ (Nat.two_pow_pos _)
  have hblock' := lt_hostBlock hpaged page
  have hpos := targetPageSize_pos cfg
  have hlast : hostStart cfg start < start →
      hostStart cfg start + cfg.hostPageSize = 2^cfg.targetLongBits →
        hostBlock cfg page ≠ hostStart cfg start := fun hin hsame heq =>
    hclass (.last hin hsame heq (.inl hlt))
  have hsum : hostStart cfg start < start → cfg.abi (start+len) = start+len := by
    intro hin
    have hfit := (hout hin).fits
    unfold Config.abi at hlt ⊢
    rcases Nat.lt_or_eq_of_le hfit with hless | heq
    · exact mod_eq_of_lt hless
    · rw [heq,mod_self] at hlt
      omega
  rw [fixedCalls_eq]
  split
  · rename_i hsingle
    have hout' := hout hsingle.1
    apply (KeepsHost.refl cfg _ _ page).runCalls hpaged
    refine head_spares h hout'.aligned hstart hmap (hsingle.stop_le h hstart hstop)
      (hlast hsingle.1) fun _ => ?_
    rw [hsum hsingle.1]
    exact hout'.page
  · rename_i hsingle
    have hhead : ∀ call ∈ (if hostStart cfg start < start then
        mmapFrag cfg a.flags (hostStart cfg start) start (hostStart cfg start + cfg.hostPageSize)
          prot shared (file 0) else []), call.Spares cfg (a.flags page) a.prot page := by
      intro call hcall
      split at hcall
      · rename_i hin
        have hout' := hout hin
        refine head_spares h hout'.aligned hstart hmap (le_refl _) (hlast hin) (fun heq => ?_) call
            hcall
        refine .inl (hout'.page.resolve_right fun hbehind => ?_)
        have hfit := Nat.lt_of_le_of_ne (hostStart_fits h hstart) fun hsame =>
          hlast hin hsame heq
        have hend := hostPageAlign_single h hlt (by rw [hsum hin]; omega) hfit
        exact hsingle ⟨hin,by rw [hend,hostLong_of_lt h hfit]⟩
      · cases hcall
    refine KeepsHost.append hpaged (KeepsHost.append hpaged
      ((KeepsHost.refl cfg _ _ page).runCalls hpaged hhead) fun hok => ?_) fun hok => ?_
    · intro call hcall
      split at hcall
      · rename_i htail
        refine tail_spares h hstop htail hmap (fun heq => ?_) call hcall
        refine hclass (.tail ⟨htail,hsingle⟩ (fun hin => ?_) heq (.inl hlt))
        rw [if_pos hin,mmapFrag_ok hpaged (hostStart_le cfg start) (le_refl _)] at hok
        split at hok
        · rename_i hfresh
          exact .inr ⟨hok.2,.inl hfresh⟩
        · refine hok.imp_right fun hread => ⟨hread.1,.inr ?_⟩
          rw [allHost_iff hpaged]
          intro g hg
          have := (allHost_iff hpaged).mp hread.2 g hg
          rw [and_eq_true] at this
          exact this.2
      · cases hcall
    · intro call hcall
      split at hcall
      · rw [mem_singleton.mp hcall]
        intro hostPage hover
        rw [eq_false_iff,Ne,inHost_iff hpaged (middleStart_dvd h hstart) (middleEnd_dvd h hstop)
            hover]
        rintro ⟨hlow,hhi⟩
        by_cases hin : hostStart cfg start < start
        · have hmiddle := middle_inside h hlt hstop hlow hhi
          have := (hout hin).page
          omega
        · have halign := le_antisymm (hostStart_le cfg start) (Nat.le_of_not_lt hin)
          rw [middleStart,if_neg hin,halign] at hlow
          refine hclass (.beyond halign hlt (fun htail => ?_) (.inl ⟨hlow,hhi⟩))
          rw [if_pos htail.1.1,runCalls_giveUp (mem_append_right _
            (mmapFrag_giveUp ((refuses_congr (hfile _)).mpr htail.2)))] at hok
          cases hok
      · cases hcall

theorem fixedCalls_keeps_of_le (hle : cfg.abi (start+len) ≤ start)
    (hfail : (runCalls cfg host (fixedCalls cfg a.flags start (cfg.abi (start+len)) prot shared
      file) a.toHostMem).2 = false) :
    KeepsHost cfg (a.flags page) a.toHostMem (runCalls cfg host
      (fixedCalls cfg a.flags start (cfg.abi (start+len)) prot shared file) a.toHostMem).1
      page := by
  have hpaged := h.paged
  have hstop : cfg.abi (start+len) < 2^cfg.targetLongBits := mod_lt _ (Nat.two_pow_pos _)
  obtain ⟨hre,hspec⟩ := hostPageAlign_spec h.space hstop
  have hfresh : ∀ {realStart first upTo : Nat} {file' : Option FileMap}, realStart ≤ first →
      upTo ≤ realStart+cfg.hostPageSize → ¬ Refuses prot shared file' →
      orFlags a.flags (pagesOutside cfg realStart first upTo) = 0 →
      (runCalls cfg host (mmapFrag cfg a.flags realStart first upTo prot shared file')
        a.toHostMem).2 = false →
      KeepsHost cfg (a.flags page) a.toHostMem (runCalls cfg host
        (mmapFrag cfg a.flags realStart first upTo prot shared file') a.toHostMem).1 page := by
    intro realStart first upTo file' hlow hhi href hz hnot
    rcases mmapFrag_fresh host a.toHostMem hpaged hlow hhi href hz with hok | hsame
    · rw [hok] at hnot
      cases hnot
    · rw [hsame]
      exact KeepsHost.refl cfg _ _ page
  by_cases hin : hostStart cfg start < start
  · have hout' := hout hin
    have hz : cfg.abi (start+len) = 0 := by
      have hpos := hout'.pos
      unfold Config.abi at hle ⊢
      rcases Nat.lt_or_eq_of_le hout'.fits with hless | heq
      · rw [mod_eq_of_lt hless] at hle
        omega
      · rw [heq,mod_self]
    have halias : hostPageAlign cfg 0 = 0 :=
      hostPageAlign_of_dvd h (Nat.dvd_zero _) (Nat.two_pow_pos _)
    have hcalls : ∃ upTo, upTo ≤ hostStart cfg start + cfg.hostPageSize ∧
        fixedCalls cfg a.flags start (cfg.abi (start+len)) prot shared file =
          mmapFrag cfg a.flags (hostStart cfg start) start upTo prot shared (file 0) := by
      rw [fixedCalls_eq,hz]
      split
      · exact ⟨0,Nat.zero_le _,rfl⟩
      refine ⟨_,le_refl _,?_⟩
      rw [middleEnd,halias,if_neg (Nat.lt_irrefl _),if_neg (Nat.lt_irrefl _),
        if_neg (Nat.not_lt_zero _),append_nil,append_nil]
    obtain ⟨upTo,hupTo,hcalls⟩ := hcalls
    rw [hcalls] at hfail ⊢
    by_cases hlast : hostBlock cfg page = hostStart cfg start ∧
        hostStart cfg start + cfg.hostPageSize = 2^cfg.targetLongBits
    · refine hfresh (hostStart_le cfg start) hupTo (fun href => ?_) ?_ hfail
      · exact hclass (.last hin hlast.2 hlast.1 (.inr href))
      · rw [pagesOutside_last _ _ hlast.2]
        rfl
    · apply (KeepsHost.refl cfg _ _ page).runCalls hpaged
      refine head_spares h hout'.aligned hstart hmap hupTo (fun hsame heq => hlast ⟨heq,hsame⟩)
        fun heq => .inl ?_
      have hblock' := lt_hostBlock hpaged page
      have hpos := targetPageSize_pos cfg
      have hfit := hostStart_fits h hstart
      have hfull : start+len = 2^cfg.targetLongBits := by
        unfold Config.abi at hz
        rcases Nat.lt_or_eq_of_le hout'.fits with hless | heq
        · rw [mod_eq_of_lt hless] at hz
          omega
        · exact heq
      have := hout'.page
      omega
  · have halign := le_antisymm (hostStart_le cfg start) (Nat.le_of_not_lt hin)
    have hsingle : ¬ Single cfg start (cfg.abi (start+len)) := fun hsingle => hin hsingle.1
    have hmiddle : ¬ middleStart cfg start < middleEnd cfg (cfg.abi (start+len)) := by
      rw [middleStart,if_neg hin,halign,middleEnd]
      split <;> omega
    rw [fixedCalls_eq,if_neg hsingle,if_neg hin,if_neg hmiddle,nil_append,append_nil] at hfail ⊢
    split
    · rename_i htail
      rw [if_pos htail] at hfail
      by_cases heq : hostBlock cfg page = hostPageAlign cfg (cfg.abi (start+len)) - cfg.hostPageSize
      · refine hfresh (le_refl _) (hostPageAlign_tail h hstop htail).ge (fun href => ?_)
          (tail_fresh h a.flags hstop htail) hfail
        exact hclass (.tail ⟨htail,hsingle⟩ (fun hins => absurd hins hin) heq
          (.inr ((refuses_congr (hfile _)).mp href)))
      · exact (KeepsHost.refl cfg _ _ page).runCalls hpaged (tail_spares h hstop htail hmap heq)
    · exact KeepsHost.refl cfg _ _ page

end

end

theorem fixedCalls_giveUp (hfile : ∀ i, (file i).isSome = (file 0).isSome)
    (href : Refuses prot shared (file 0))
    (hshared : hostStart cfg start < start ∨ HasTail cfg start stop) :
    HostCall.giveUp ∈ fixedCalls cfg flagsOf start stop prot shared file := by
  rw [fixedCalls_eq]
  split
  · exact mmapFrag_giveUp href
  apply mem_append_left
  rcases hshared with hin | htail
  · rw [if_pos hin]
    exact mem_append_left _ (mmapFrag_giveUp href)
  · rw [if_pos htail.1]
    exact mem_append_right _ (mmapFrag_giveUp ((refuses_congr (hfile _)).mpr href))

theorem allHost_willing (hpaged : cfg.Paged) (start stop : Nat) :
    allHost cfg start stop willing.granted = true :=
  (allHost_iff hpaged).mpr fun _ _ => rfl

theorem head_ok (h : cfg.PageInit) (hdone : HeadDone cfg a start prot shared (file 0))
    (hm : m.prot = a.prot) :
    (runCalls cfg willing (if hostStart cfg start < start then
      mmapFrag cfg a.flags (hostStart cfg start) start (hostStart cfg start + cfg.hostPageSize)
        prot shared (file 0) else []) m).2 = true := by
  split
  · rename_i hins
    rw [mmapFrag_ok h.paged (hostStart_le cfg start) (le_refl _)]
    have hnone : file 0 = none → ¬ Refuses prot shared (file 0) := by
      intro hnone href
      rw [hnone] at href
      cases href.1
    split
    · refine ⟨allHost_willing h.paged _ _,?_⟩
      exact (hdone hins).elim hnone fun hread => hread.1
    · rename_i hpages
      refine (hdone hins).imp_right fun hread => ⟨hread.1,?_⟩
      have hmap := hread.2.resolve_left hpages
      rw [allHost_iff h.paged] at hmap ⊢
      intro g hg
      rw [hm,hmap g hg]
      rfl
  · rfl

theorem tail_ok (flagsOf : Nat → Nat) (m : HostMem) (h : cfg.PageInit) {file : Option FileMap}
    (hstop : stop < 2^cfg.targetLongBits)
    (hgrant : stop < hostPageAlign cfg stop → ¬ Refuses prot shared file) :
    (runCalls cfg willing ([] ++ if stop < hostPageAlign cfg stop then
      mmapFrag cfg flagsOf (hostPageAlign cfg stop - cfg.hostPageSize)
        (hostPageAlign cfg stop - cfg.hostPageSize) (hostPageAlign cfg stop) prot shared file
      else []) m).2 = true := by
  rw [nil_append]
  split
  · rename_i htail
    rw [mmapFrag_ok h.paged (le_refl _) (hostPageAlign_tail h hstop htail).ge,
      if_pos (tail_fresh h flagsOf hstop htail)]
    exact ⟨allHost_willing h.paged _ _,hgrant htail⟩
  · rfl

theorem inHost_first (hpaged : cfg.Paged) {first last : Nat} (hfirst : cfg.hostPageSize ∣ first)
    (hlast : cfg.hostPageSize ∣ last) (hlow : first ≤ hostBlock cfg page)
    (hhi : hostBlock cfg page < last) :
    inHost cfg first last (page*cfg.targetPageSize/cfg.realHostPageSize) = true := by
  have hpage : page*cfg.targetPageSize/cfg.targetPageSize = page :=
    Nat.mul_div_cancel _ (targetPageSize_pos cfg)
  exact (inHost_iff hpaged hfirst hlast (overlaps_of_mem hpaged hpage)).mpr ⟨hlow,hhi⟩

theorem Clash.forgets (h : cfg.PageInit) (hstart : start < 2^cfg.targetLongBits)
    (hfile : ∀ i, (file i).isSome = (file 0).isSome)
    (hclass : Clash cfg a start len prot shared file page)
    (hcalls : fixedCalls cfg a.flags start (cfg.abi (start+len)) prot shared file = calls) :
    (∀ m m' : HostMem, m.prot = a.prot → m'.prot = a.prot →
      Agree (page*cfg.targetPageSize) (runCalls cfg willing calls m).1
        (runCalls cfg willing calls m').1 ∧
      ((runCalls cfg willing calls m).2 = true → start < cfg.abi (start+len))) ∨
    (start < cfg.abi (start+len) ∧ inRange cfg start (start+len) page = true ∧
      a.flags page ≠ storedFlags (prot ||| pageValid) ∧ ∀ m : HostMem, m.prot = a.prot →
        (runCalls cfg willing calls m).2 = true) := by
  have hpaged := h.paged
  have hpos := hpaged.hostPos
  have hstop : cfg.abi (start+len) < 2^cfg.targetLongBits := mod_lt _ (Nat.two_pow_pos _)
  obtain ⟨hre,-⟩ := hostPageAlign_spec h.space hstop
  have hdvd := hostStart_dvd cfg start
  have hnext : cfg.hostPageSize ∣ hostStart cfg start + cfg.hostPageSize :=
    Nat.dvd_add hdvd (Nat.dvd_refl _)
  have hret : (hostStart cfg start < start ∨ HasTail cfg start (cfg.abi (start+len))) →
      (start < cfg.abi (start+len) ∨ Refuses prot shared (file 0)) → ∀ m : HostMem,
      (runCalls cfg willing calls m).2 = true → start < cfg.abi (start+len) := by
    intro hshared hor m hok
    refine hor.resolve_right fun href => ?_
    rw [← hcalls,runCalls_giveUp (fixedCalls_giveUp hfile href hshared)] at hok
    cases hok
  rw [fixedCalls_eq] at hcalls
  cases hclass with
  | last hins hlast hblock hor =>
    refine .inl fun m m' hm hm' => ⟨?_,hret (.inl hins) hor m⟩
    have hin := inHost_first hpaged hdvd hnext hblock.ge (by omega)
    rw [← hcalls,mmapFrag_eq,mmapFrag_eq,pagesOutside_last _ _ hlast,
      pagesOutside_last _ _ hlast,if_pos hins]
    split
    · exact Agree.of_mmap [] _ (hm.trans hm'.symm) rfl (by omega) (allHost_willing hpaged _ _) rfl
          hin
    · exact Agree.of_mmap [] _ (hm.trans hm'.symm) rfl (by omega) (allHost_willing hpaged _ _) rfl
          hin
  | tail htail hdone hblock hor =>
    refine .inl fun m m' hm hm' => ⟨?_,hret (.inr htail) hor m⟩
    have hend := hostPageAlign_tail h hstop htail.1
    have hin := inHost_first hpaged (Nat.dvd_sub hre (Nat.dvd_refl cfg.hostPageSize))
      (hend.symm ▸ hre) hblock.ge (show _ < hostPageAlign cfg (cfg.abi (start+len)) -
        cfg.hostPageSize + cfg.hostPageSize by omega)
    rw [← hcalls,if_neg htail.2,if_pos htail.1,tail_eq h hstop htail.1,append_assoc,cons_append]
    exact Agree.of_mmap _ _ (hm.trans hm'.symm) (head_ok h hdone hm) (by omega)
      (allHost_willing hpaged _ _) rfl hin
  | beyond halign hlt hnot hwhat =>
    have hins : ¬ hostStart cfg start < start := by omega
    have hsingle : ¬ Single cfg start (cfg.abi (start+len)) := fun hs => hins hs.1
    have hfront := fun m i => tail_ok a.flags m h hstop fun htail href =>
      hnot ⟨⟨htail,hsingle⟩,(refuses_congr (hfile i)).mp href⟩
    rw [← hcalls,if_neg hsingle,if_neg hins]
    rcases hwhat with ⟨hlow,hhi⟩ | ⟨hrange,hflags⟩
    · refine .inl fun m m' hm hm' => ⟨?_,fun _ => hlt⟩
      have hmiddle : middleStart cfg start = start := by
        rw [middleStart,if_neg hins,halign]
      have hin := inHost_first hpaged (middleStart_dvd h hstart) (middleEnd_dvd h hstop)
        (hmiddle.symm ▸ hlow) hhi
      have hmid : middleStart cfg start < middleEnd cfg (cfg.abi (start+len)) := by omega
      rw [if_pos hmid]
      exact Agree.of_mmap _ [] (hm.trans hm'.symm) (hfront m _) hmid (allHost_willing hpaged _ _)
        (Bool.or_true _) hin
    · refine .inr ⟨hlt,hrange,hflags,fun m hm => ?_⟩
      rw [runCalls_append,if_pos (hfront m _)]
      split
      · rename_i hmid
        rw [runCalls_checked rfl,if_pos]
        · rfl
        rw [HostCall.succeeds,allHost_willing hpaged,willing,Bool.or_true,
          Bool.and_true,Bool.and_true,decide_eq_true_eq]
        exact hmid
      · rfl

end

end Hqemu.Exec
