import Hqemu.Exec.HostFrame

/-! What the mapping calls of the guest do to the pages outside their range. -/
namespace Hqemu.Exec

open Nat List

variable {cfg : Config}

def hostStart (cfg : Config) (start : Nat) : Nat := start/cfg.hostPageSize*cfg.hostPageSize

theorem hostStart_dvd (cfg : Config) (start : Nat) : cfg.hostPageSize ∣ hostStart cfg start :=
  Nat.dvd_mul_left _ _

theorem hostStart_le (cfg : Config) (start : Nat) : hostStart cfg start ≤ start :=
  div_mul_le_self _ _

theorem lt_hostStart (hpaged : cfg.Paged) (start : Nat) :
    start < hostStart cfg start + cfg.hostPageSize :=
  lt_div_mul_add hpaged.hostPos

variable {start : Nat}

theorem hostStart_fits (h : cfg.PageInit) (hstart : start < 2^cfg.targetLongBits) :
    hostStart cfg start + cfg.hostPageSize ≤ 2^cfg.targetLongBits := by
  by_contra hnot
  have := le_of_lt_add h.space (hostStart_dvd cfg start) (Nat.lt_of_not_le hnot)
  have := hostStart_le cfg start
  omega

variable {stop : Nat}

theorem hostPageAlign_spec (hspace : cfg.hostPageSize ∣ 2^cfg.targetLongBits)
    (hstop : stop < 2^cfg.targetLongBits) : cfg.hostPageSize ∣ hostPageAlign cfg stop ∧
      (stop ≤ hostPageAlign cfg stop ∧ hostPageAlign cfg stop < stop+cfg.hostPageSize ∨
        hostPageAlign cfg stop = 0 ∧ 2^cfg.targetLongBits < stop+cfg.hostPageSize) := by
  have hpos := Nat.pos_of_dvd_of_pos hspace (Nat.two_pow_pos _)
  have hlow : stop ≤ (stop+cfg.hostPageSize-1) / cfg.hostPageSize * cfg.hostPageSize := by
    have := lt_div_mul_add (a := stop+cfg.hostPageSize-1) hpos
    omega
  have hhi := div_mul_le_self (stop+cfg.hostPageSize-1) cfg.hostPageSize
  have hle : (stop+cfg.hostPageSize-1) / cfg.hostPageSize * cfg.hostPageSize ≤
      2^cfg.targetLongBits :=
    le_of_lt_add (Nat.dvd_mul_left _ _) hspace (by omega)
  unfold hostPageAlign Config.abi
  rcases Nat.lt_or_eq_of_le hle with hlt | heq
  · rw [mod_eq_of_lt hlt]
    exact ⟨Nat.dvd_mul_left _ _,.inl ⟨hlow,by omega⟩⟩
  · rw [heq,mod_self]
    exact ⟨Nat.dvd_zero _,.inr ⟨rfl,by omega⟩⟩

variable {page : Nat}

theorem mem_pagesFrom (hstart : cfg.targetPageSize ∣ start) :
    page ∈ pagesFrom cfg start stop ↔
      start ≤ page*cfg.targetPageSize ∧ page*cfg.targetPageSize < stop := by
  obtain ⟨k,rfl⟩ := hstart
  rw [Nat.mul_comm cfg.targetPageSize k]
  have hpos := targetPageSize_pos cfg
  have hpage : ∀ i, (k*cfg.targetPageSize+i*cfg.targetPageSize) / cfg.targetPageSize = k+i := by
    intro i
    rw [← Nat.add_mul,Nat.mul_div_cancel _ hpos]
  have hlast := UserPages.lt_ceilDiv hpos
  simp only [pagesFrom,List.mem_map,mem_range,hpage,hlast]
  constructor
  · rintro ⟨i,hi,rfl⟩
    rw [Nat.add_mul]
    omega
  · rintro ⟨hlow,hhi⟩
    have hle : k ≤ page := Nat.le_of_mul_le_mul_right hlow hpos
    refine ⟨page-k,?_,Nat.add_sub_cancel' hle⟩
    rw [Nat.sub_mul]
    omega

/-- The pages of a host page that are outside a mapping. None are found for the last host
page, whose end is 0. -/
theorem mem_pagesOutside (h : cfg.PageInit) {realStart : Nat} (hreal : cfg.hostPageSize ∣ realStart)
    (hfit : realStart+cfg.hostPageSize < 2^cfg.targetLongBits) :
    page ∈ pagesOutside cfg realStart start stop ↔ hostBlock cfg page = realStart ∧
      (page*cfg.targetPageSize < start ∨ stop < (page+1) * cfg.targetPageSize) := by
  have hpos := targetPageSize_pos cfg
  obtain ⟨k,hk⟩ := h.paged.target
  have hblock : hostBlock cfg page = realStart ↔ realStart ≤ page*cfg.targetPageSize ∧
        page*cfg.targetPageSize < realStart+cfg.hostPageSize := by
    constructor
    · rintro rfl
      have := lt_hostBlock h.paged page
      exact ⟨hostBlock_le cfg page,by omega⟩
    · exact fun hin => hostBlock_eq hreal hin.1 hin.2
  obtain ⟨j,rfl⟩ := h.paged.target.trans hreal
  have hcount : (cfg.abi (cfg.targetPageSize*j+cfg.hostPageSize) - cfg.targetPageSize*j) /
      cfg.targetPageSize = k := by
    rw [Config.abi,mod_eq_of_lt hfit,Nat.add_sub_cancel_left,hk,Nat.mul_div_cancel_left _ hpos]
  simp only [pagesOutside,hcount,mem_filter,List.mem_map,mem_range,
    Nat.mul_div_cancel_left _ hpos,decide_eq_true_eq,hblock]
  refine and_congr_left fun _ => ?_
  rw [hk,← Nat.mul_add,Nat.mul_comm page,Nat.mul_le_mul_left_iff hpos,Nat.mul_lt_mul_left hpos]
  constructor
  · rintro ⟨i,hi,rfl⟩
    omega
  · exact fun hin => ⟨page-j,by omega,by omega⟩

theorem pagesOutside_last {realStart : Nat} (start stop : Nat)
    (hlast : realStart+cfg.hostPageSize = 2^cfg.targetLongBits) :
    pagesOutside cfg realStart start stop = [] := by
  unfold pagesOutside Config.abi
  rw [hlast,mod_self,Nat.zero_sub,Nat.zero_div]
  rfl

theorem testBit_orFlags (flags : Nat → Nat) (pages : List Nat) (i : Nat) :
    (orFlags flags pages).testBit i = pages.any fun page => (flags page).testBit i := by
  have hgen : ∀ prot, (pages.foldl (fun prot page => prot ||| flags page) prot).testBit i =
      (prot.testBit i || pages.any fun page => (flags page).testBit i) := by
    induction pages with
    | nil => simp
    | cons page rest ih =>
      intro prot
      rw [foldl_cons,ih,testBit_or,any_cons,Bool.or_assoc]
  rw [orFlags,hgen,zero_testBit,Bool.false_or]

variable {flags : Nat → Nat}

theorem testBit_orFlags_of_mem {pages : List Nat} {i : Nat} (hmem : page ∈ pages)
    (hi : (flags page).testBit i = true) : (orFlags flags pages).testBit i = true := by
  rw [testBit_orFlags]
  exact any_eq_true.mpr ⟨page,hmem,hi⟩

theorem orFlags_ne_zero {pages : List Nat} (hmem : page ∈ pages) (hne : flags page ≠ 0) :
    orFlags flags pages ≠ 0 := by
  obtain ⟨i,hi⟩ := exists_testBit_of_ne_zero hne
  intro hz
  have := testBit_orFlags_of_mem hmem hi
  rw [hz,zero_testBit] at this
  cases this

theorem hostLong_of_lt (h : cfg.PageInit) {x : Nat} (hx : x < 2^cfg.targetLongBits) :
    hostLong x = x :=
  mod_eq_of_lt (hx.trans_le (Nat.pow_le_pow_right (by decide) h.bits))

theorem hostPageAlign_single (h : cfg.PageInit) (hlt : start < stop)
    (hstop : stop < hostStart cfg start + cfg.hostPageSize)
    (hfit : hostStart cfg start + cfg.hostPageSize < 2^cfg.targetLongBits) :
    hostPageAlign cfg stop = hostStart cfg start + cfg.hostPageSize := by
  have hstart := hostStart_le cfg start
  have hdvd := hostStart_dvd cfg start
  have hnext : cfg.hostPageSize ∣ hostStart cfg start + cfg.hostPageSize :=
    Nat.dvd_add hdvd (Nat.dvd_refl _)
  obtain ⟨hre,⟨hle,hbound⟩ | ⟨-,hlast⟩⟩ := hostPageAlign_spec h.space (hstop.trans hfit)
  · have hup := le_of_lt_add hre hnext (by omega)
    by_contra hne
    have := le_of_lt_add hre hdvd (by omega)
    omega
  · have := le_of_lt_add h.space hnext (by omega)
    omega

theorem hostPageAlign_lt (cfg : Config) (stop : Nat) :
    hostPageAlign cfg stop < 2^cfg.targetLongBits :=
  mod_lt _ (Nat.two_pow_pos _)

variable {prot : Nat}

section

variable (h : cfg.PageInit)
include h

theorem hostPageAlign_last (hlt : start < stop) (hstop : stop < 2^cfg.targetLongBits)
    (hlast : hostStart cfg start + cfg.hostPageSize = 2^cfg.targetLongBits) :
    hostPageAlign cfg stop = 0 := by
  have hrs := hostStart_le cfg start
  have hfull := hostPageAlign_lt cfg stop
  obtain ⟨hre,⟨hle,-⟩ | ⟨hz,-⟩⟩ := hostPageAlign_spec h.space hstop
  · have := le_of_lt_add h.space hre (by omega)
    omega
  · exact hz

def lastProt (cfg : Config) (flags : Nat → Nat) (start prot : Nat) : Nat :=
  (prot ||| orFlags flags (pagesFrom cfg (hostStart cfg start) start)) &&& pageBits

theorem mprotectCalls_last (hlt : start < stop)
    (hstop : stop < 2^cfg.targetLongBits) (hins : hostStart cfg start < start)
    (hlast : hostStart cfg start + cfg.hostPageSize = 2^cfg.targetLongBits) :
    mprotectCalls cfg flags start stop prot =
      [.mprotect (hostStart cfg start) (hostStart cfg start + cfg.hostPageSize)
        (lastProt cfg flags start prot) true] := by
  have hend := hostPageAlign_last h hlt hstop hlast
  have hnone : pagesFrom cfg stop 0 = [] := by
    have : (0-stop+cfg.targetPageSize-1) / cfg.targetPageSize = 0 := by
      rw [Nat.zero_sub,Nat.zero_add]
      exact div_eq_of_lt (sub_lt (targetPageSize_pos cfg) (by decide))
    rw [pagesFrom,this]
    rfl
  have hwrap : cfg.abi (hostStart cfg start + cfg.hostPageSize) = 0 := by
    rw [hlast,Config.abi,mod_self]
  unfold mprotectCalls lastProt
  simp [hend,hnone,show start / cfg.hostPageSize * cfg.hostPageSize = hostStart cfg start from
    rfl,hins,hwrap,orFlags,foldl_nil,ite_self,Nat.or_zero]

def Single (cfg : Config) (start stop : Nat) : Prop :=
  hostStart cfg start < start ∧
    hostPageAlign cfg stop = hostLong (hostStart cfg start + cfg.hostPageSize)

instance (cfg : Config) (start stop : Nat) : Decidable (Single cfg start stop) :=
  inferInstanceAs (Decidable (_ ∧ _))

theorem abi_add_hostPageSize (hstart : start < 2^cfg.targetLongBits) :
    cfg.abi (hostStart cfg start + cfg.hostPageSize) = hostStart cfg start + cfg.hostPageSize ∧
        hostStart cfg start + cfg.hostPageSize < 2^cfg.targetLongBits ∨
      cfg.abi (hostStart cfg start + cfg.hostPageSize) = 0 ∧
        hostStart cfg start + cfg.hostPageSize = 2^cfg.targetLongBits := by
  unfold Config.abi
  rcases Nat.lt_or_eq_of_le (hostStart_fits h hstart) with hlt | heq
  · exact .inl ⟨mod_eq_of_lt hlt,hlt⟩
  · rw [heq,mod_self]
    exact .inr ⟨rfl,rfl⟩

theorem Single.abi_eq (hstart : start < 2^cfg.targetLongBits) (hsingle : Single cfg start stop) :
    cfg.abi (hostStart cfg start + cfg.hostPageSize) = hostPageAlign cfg stop := by
  rcases abi_add_hostPageSize h hstart with ⟨heq,hlt⟩ | ⟨hz,hlast⟩
  · rw [heq,hsingle.2,hostLong_of_lt h hlt]
  rw [hz,hsingle.2,hlast,hostLong]
  have hlt := hostPageAlign_lt cfg stop
  rw [hsingle.2,hlast,hostLong] at hlt
  rcases Nat.lt_or_eq_of_le h.bits with hbits | hbits
  · rw [mod_eq_of_lt (Nat.pow_lt_pow_right (by decide) hbits)] at hlt
    exact absurd hlt (Nat.lt_irrefl _)
  · rw [hbits,mod_self]

def middleStart (cfg : Config) (start : Nat) : Nat :=
  if hostStart cfg start < start then cfg.abi (hostStart cfg start + cfg.hostPageSize)
  else hostStart cfg start

def middleEnd (cfg : Config) (stop : Nat) : Nat :=
  if stop < hostPageAlign cfg stop then hostPageAlign cfg stop - cfg.hostPageSize
  else hostPageAlign cfg stop

theorem middleStart_dvd (hstart : start < 2^cfg.targetLongBits) :
    cfg.hostPageSize ∣ middleStart cfg start := by
  unfold middleStart
  split
  · rcases abi_add_hostPageSize h hstart with ⟨heq,-⟩ | ⟨hz,-⟩
    · rw [heq]
      exact Nat.dvd_add (hostStart_dvd cfg start) (Nat.dvd_refl _)
    · rw [hz]
      exact Nat.dvd_zero _
  · exact hostStart_dvd cfg start

theorem middleEnd_dvd (hstop : stop < 2^cfg.targetLongBits) :
    cfg.hostPageSize ∣ middleEnd cfg stop := by
  obtain ⟨hre,-⟩ := hostPageAlign_spec h.space hstop
  unfold middleEnd
  split
  · exact Nat.dvd_sub hre (Nat.dvd_refl _)
  · exact hre

theorem middle_inside (hlt : start < stop)
    (hstop : stop < 2^cfg.targetLongBits) (hlow : middleStart cfg start ≤ hostBlock cfg page)
    (hhi : hostBlock cfg page < middleEnd cfg stop) :
    start ≤ page*cfg.targetPageSize ∧ page*cfg.targetPageSize < stop := by
  have hblock := hostBlock_le cfg page
  have hblock' := lt_hostBlock h.paged page
  have hpos := targetPageSize_pos cfg
  have hrs' := lt_hostStart h.paged start
  have habi := abi_add_hostPageSize h (hlt.trans hstop)
  obtain ⟨hre,hend⟩ := hostPageAlign_spec h.space hstop
  have hbehind := add_le_of_lt (hostBlock_dvd cfg page) (middleEnd_dvd h hstop) hhi
  unfold middleStart at hlow
  unfold middleEnd at hhi hbehind
  have hsome : hostPageAlign cfg stop ≠ 0 := by
    split at hhi <;> omega
  refine ⟨?_,?_⟩
  · split at hlow
    · rcases habi with ⟨heq,-⟩ | ⟨-,hlast⟩
      · omega
      · exact absurd (hostPageAlign_last h hlt hstop hlast) hsome
    · omega
  · split at hbehind <;> omega

theorem mem_mprotectCalls {call : HostCall} (hstart : start < 2^cfg.targetLongBits)
    (hcall : call ∈ mprotectCalls cfg flags start stop prot) :
    (hostStart cfg start < start ∧ call = .mprotect (hostStart cfg start)
        (hostStart cfg start + cfg.hostPageSize)
        ((prot ||| orFlags flags (pagesFrom cfg (hostStart cfg start) start) |||
          if Single cfg start stop then orFlags flags (pagesFrom cfg stop (hostPageAlign cfg stop))
          else 0) &&& pageBits) true) ∨
      ¬ Single cfg start stop ∧
        (stop < hostPageAlign cfg stop ∧ call = .mprotect (hostPageAlign cfg stop -
            cfg.hostPageSize)
          (hostPageAlign cfg stop)
          ((prot ||| orFlags flags (pagesFrom cfg stop (hostPageAlign cfg stop))) &&& pageBits) true
              ∨
        call = .mprotect (middleStart cfg start) (middleEnd cfg stop) prot true) := by
  unfold mprotectCalls at hcall
  simp only [show start / cfg.hostPageSize * cfg.hostPageSize = hostStart cfg start from rfl,
    ← Single.eq_1,mem_append] at hcall
  rcases hcall with (hcall | hcall) | hcall
  · split at hcall
    · rename_i hins
      exact .inl ⟨hins,mem_singleton.mp hcall⟩
    · cases hcall
  · by_cases hsingle : Single cfg start stop
    · rw [if_pos hsingle,if_neg (Nat.lt_irrefl _)] at hcall
      cases hcall
    · rw [if_neg hsingle] at hcall
      split at hcall
      · rename_i htail
        exact .inr ⟨hsingle,.inl ⟨htail,mem_singleton.mp hcall⟩⟩
      · cases hcall
  · by_cases hsingle : Single cfg start stop
    · rw [if_pos hsingle,if_pos hsingle.1,hsingle.abi_eq h hstart,
        if_neg (Nat.lt_irrefl _),if_neg (Nat.lt_irrefl _)] at hcall
      cases hcall
    · rw [if_neg hsingle] at hcall
      change call ∈ if middleStart cfg start < middleEnd cfg stop then
        [.mprotect (middleStart cfg start) (middleEnd cfg stop) prot true] else [] at hcall
      split at hcall
      · exact .inr ⟨hsingle,.inr (mem_singleton.mp hcall)⟩
      · cases hcall

theorem behind_of_tail (hlt : start < stop) (hstop : stop < 2^cfg.targetLongBits)
    (hsingle : ¬ Single cfg start stop) (htail : stop < hostPageAlign cfg stop)
    (hlow : hostPageAlign cfg stop - cfg.hostPageSize ≤ hostBlock cfg page) :
    start ≤ page*cfg.targetPageSize := by
  by_contra hfront
  have hblock := hostBlock_le cfg page
  have hdvd := hostStart_dvd cfg start
  have hrs := hostStart_le cfg start
  have hrs' := lt_hostStart h.paged start
  obtain ⟨hre,hend⟩ := hostPageAlign_spec h.space hstop
  have hsame := le_of_lt_add (hostBlock_dvd cfg page) hdvd (by omega)
  have hnext := add_le_of_lt hdvd hre (by omega)
  have heq : hostPageAlign cfg stop = hostStart cfg start + cfg.hostPageSize := by omega
  refine hsingle ⟨by omega,?_⟩
  rw [heq,hostLong_of_lt h (heq ▸ hostPageAlign_lt cfg stop)]

theorem mprotectCalls_spares {hostProt : Nat → Option Nat} (htarget : cfg.targetPageSize ∣ stop)
    (hlt : start < stop) (hstop : stop < 2^cfg.targetLongBits)
    (hout : page*cfg.targetPageSize < start ∨ stop ≤ page*cfg.targetPageSize)
    (hlast : hostStart cfg start < start →
      hostStart cfg start + cfg.hostPageSize = 2^cfg.targetLongBits →
        hostBlock cfg page = hostStart cfg start → page*cfg.targetPageSize < start) :
    ∀ call ∈ mprotectCalls cfg flags start stop prot,
      call.Spares cfg (flags page) hostProt page := by
  intro call hcall
  have hpaged := h.paged
  have hpos := targetPageSize_pos cfg
  have hlow := hostBlock_le cfg page
  have hhi := lt_hostBlock hpaged page
  have hdvd := hostStart_dvd cfg start
  have hblock := hostBlock_dvd cfg page
  obtain ⟨hre,-⟩ := hostPageAlign_spec h.space hstop
  rcases mem_mprotectCalls h (hlt.trans hstop) hcall with
    ⟨hins,rfl⟩ | ⟨hsingle,⟨htail,rfl⟩ | rfl⟩
  · intro hostPage hover hin i hi hgrow
    rw [inHost_iff hpaged hdvd (Nat.dvd_add hdvd (Nat.dvd_refl _)) hover] at hin
    have heq : hostBlock cfg page = hostStart cfg start :=
      le_antisymm (le_of_lt_add hblock hdvd hin.2) hin.1
    rw [testBit_and,Bool.and_eq_true] at hi ⊢
    refine ⟨?_,hi.2⟩
    rw [testBit_or,testBit_or,Bool.or_eq_true,Bool.or_eq_true]
    by_cases hfront : page*cfg.targetPageSize < start
    · refine .inl (.inr (testBit_orFlags_of_mem ?_ hi.1))
      rw [mem_pagesFrom (hpaged.target.trans hdvd)]
      exact ⟨heq ▸ hlow,hfront⟩
    · have hfit := Nat.lt_of_le_of_ne (hostStart_fits h (hlt.trans hstop)) fun hsame =>
        hfront (hlast hins hsame heq)
      have hsingle := hostPageAlign_single h hlt (by omega) hfit
      rw [if_pos ⟨hins,by rw [hsingle,hostLong_of_lt h hfit]⟩]
      refine .inr (testBit_orFlags_of_mem ?_ hi.1)
      rw [mem_pagesFrom htarget,hsingle]
      omega
  · intro hostPage hover hin i hi hgrow
    rw [inHost_iff hpaged (Nat.dvd_sub hre (Nat.dvd_refl _)) hre hover] at hin
    rw [testBit_and,Bool.and_eq_true] at hi ⊢
    refine ⟨?_,hi.2⟩
    rw [testBit_or,Bool.or_eq_true]
    refine .inr (testBit_orFlags_of_mem ?_ hi.1)
    rw [mem_pagesFrom htarget]
    have := behind_of_tail h hlt hstop hsingle htail hin.1
    have := add_le_of_lt hblock hre hin.2
    omega
  · intro hostPage hover hin
    rw [inHost_iff hpaged (middleStart_dvd h (hlt.trans hstop)) (middleEnd_dvd h hstop)
      hover] at hin
    have := middle_inside h hlt hstop hin.1 hin.2
    omega

theorem hostPageAlign_of_dvd (hdvd : cfg.hostPageSize ∣ stop)
    (hstop : stop < 2^cfg.targetLongBits) : hostPageAlign cfg stop = stop := by
  obtain ⟨hre,⟨hle,hlt⟩ | ⟨-,hlast⟩⟩ := hostPageAlign_spec h.space hstop
  · exact le_antisymm (le_of_lt_add hre hdvd hlt) hle
  · have := le_of_lt_add h.space hdvd hlast
    omega

end

theorem hostStart_of_dvd (hdvd : cfg.hostPageSize ∣ start) : hostStart cfg start = start :=
  Nat.div_mul_cancel hdvd

theorem trimRange_spares (h : cfg.PageInit) (htarget : cfg.targetPageSize ∣ stop)
    (hlt : start < stop) (hstop : stop < 2^cfg.targetLongBits)
    (hout : page*cfg.targetPageSize < start ∨ stop ≤ page*cfg.targetPageSize)
    (hmap : flags page ≠ 0) (hlow : (trimRange cfg flags start stop).1 ≤ hostBlock cfg page)
    (hhi : hostBlock cfg page < (trimRange cfg flags start stop).2) : False := by
  have hpos := targetPageSize_pos cfg
  have hblock := hostBlock_le cfg page
  have hblock' := lt_hostBlock h.paged page
  have hdvd := hostStart_dvd cfg start
  have hrs' := lt_hostStart h.paged start
  obtain ⟨hre,hend⟩ := hostPageAlign_spec h.space hstop
  have hfront : hostStart cfg start ≤ page*cfg.targetPageSize → page*cfg.targetPageSize < start →
      orFlags flags (pagesFrom cfg (hostStart cfg start) start) ≠ 0 := fun hle hlt =>
    orFlags_ne_zero ((mem_pagesFrom (h.paged.target.trans hdvd)).mpr ⟨hle,hlt⟩) hmap
  have hbehind : stop ≤ page*cfg.targetPageSize → page*cfg.targetPageSize < hostPageAlign cfg stop →
        orFlags flags (pagesFrom cfg stop (hostPageAlign cfg stop)) ≠ 0 := fun hle hlt =>
    orFlags_ne_zero ((mem_pagesFrom htarget).mpr ⟨hle,hlt⟩) hmap
  unfold trimRange at hlow hhi
  simp only [show start / cfg.hostPageSize * cfg.hostPageSize = hostStart cfg start from rfl,
    ← Single.eq_1] at hlow hhi
  by_cases hsingle : Single cfg start stop
  · rw [if_pos hsingle,if_pos hsingle.1] at hlow
    rw [if_pos hsingle,if_neg (Nat.lt_irrefl _),if_neg (not_not.mpr rfl)] at hhi
    rw [hsingle.abi_eq h (hlt.trans hstop)] at hlow
    have hup := add_le_of_lt (hostBlock_dvd cfg page) hre hhi
    split at hlow
    · omega
    rename_i hnone
    rw [not_not,Nat.or_eq_zero_iff] at hnone
    rcases hout with hout | hout
    · exact hfront (hlow.trans hblock) hout hnone.1
    · exact hbehind hout (by omega) hnone.2
  · rw [if_neg hsingle,Nat.or_zero] at hlow
    rw [if_neg hsingle] at hhi
    have hsome : hostPageAlign cfg stop ≠ 0 := by
      intro hz
      rw [hz,if_neg (Nat.not_lt_zero _),if_neg (not_not.mpr rfl)] at hhi
      exact Nat.not_lt_zero _ hhi
    have hfirst : ¬ page*cfg.targetPageSize < start := by
      intro hless
      by_cases hins : hostStart cfg start < start
      · rw [if_pos hins] at hlow
        split at hlow
        · rcases abi_add_hostPageSize h (hlt.trans hstop) with ⟨heq,-⟩ | ⟨-,hlast⟩
          · omega
          · exact hsome (hostPageAlign_last h hlt hstop hlast)
        · rename_i hnone
          exact hnone (hfront (hlow.trans hblock) hless)
      · rw [if_neg hins,if_neg (not_not.mpr rfl)] at hlow
        omega
    have hout := hout.resolve_left hfirst
    by_cases htail : stop < hostPageAlign cfg stop
    · rw [if_pos htail] at hhi
      split at hhi
      · have := add_le_of_lt (hostBlock_dvd cfg page) (Nat.dvd_sub hre (Nat.dvd_refl _)) hhi
        omega
      · rename_i hnone
        have hup := add_le_of_lt (hostBlock_dvd cfg page) hre hhi
        exact hnone (hbehind hout (by omega))
    · rw [if_neg htail,if_neg (not_not.mpr rfl)] at hhi
      have hup := add_le_of_lt (hostBlock_dvd cfg page) hre hhi
      omega

theorem trimRange_dvd (h : cfg.PageInit) (flags : Nat → Nat)
    (hstart : start < 2^cfg.targetLongBits) (hstop : stop < 2^cfg.targetLongBits) :
    cfg.hostPageSize ∣ (trimRange cfg flags start stop).1 ∧
      cfg.hostPageSize ∣ (trimRange cfg flags start stop).2 := by
  obtain ⟨hre,-⟩ := hostPageAlign_spec h.space hstop
  refine ⟨iteInduction (fun _ => ?_) fun _ => hostStart_dvd cfg start,
    iteInduction (fun _ => Nat.dvd_sub hre (Nat.dvd_refl _)) fun _ => hre⟩
  change cfg.hostPageSize ∣ cfg.abi (hostStart cfg start + cfg.hostPageSize)
  rcases abi_add_hostPageSize h hstart with ⟨heq,-⟩ | ⟨hz,-⟩
  · rw [heq]
    exact Nat.dvd_add (hostStart_dvd cfg start) (Nat.dvd_refl _)
  · rw [hz]
    exact Nat.dvd_zero _

theorem trimRange_of_dvd (h : cfg.PageInit) (flags : Nat → Nat) (hstart : cfg.hostPageSize ∣ start)
    (hdvd : cfg.hostPageSize ∣ stop) (hstop : stop < 2^cfg.targetLongBits) :
    trimRange cfg flags start stop = (start,stop) := by
  unfold trimRange
  simp [show start / cfg.hostPageSize * cfg.hostPageSize = hostStart cfg start from rfl,
    hostStart_of_dvd hstart,hostPageAlign_of_dvd h hdvd hstop,false_and,
    not_true_eq_false]

theorem trimRange_lt (cfg : Config) (flags : Nat → Nat) (start stop : Nat) :
    (trimRange cfg flags start stop).2 < 2^cfg.targetLongBits := by
  have hlt := hostPageAlign_lt cfg stop
  exact iteInduction (motive := (· < 2^cfg.targetLongBits))
    (fun _ => (sub_le _ _).trans_lt hlt) fun _ => hlt

theorem munmapCalls_spares (h : cfg.PageInit) {hostProt : Nat → Option Nat}
    (htarget : cfg.targetPageSize ∣ stop) (hlt : start < stop) (hstop : stop < 2^cfg.targetLongBits)
    (hout : page*cfg.targetPageSize < start ∨ stop ≤ page*cfg.targetPageSize)
    (hmap : flags page ≠ 0) :
    ∀ call ∈ munmapCalls cfg flags start stop, call.Spares cfg (flags page) hostProt page := by
  obtain ⟨hfirst,hlast⟩ := trimRange_dvd h flags (hlt.trans hstop) hstop
  have hspread : ∀ hostPage, overlaps cfg hostPage page = true →
      inHost cfg (trimRange cfg flags start stop).1 (trimRange cfg flags start stop).2 hostPage =
        false := by
    intro hostPage hover
    rw [Bool.eq_false_iff,Ne,inHost_iff h.paged hfirst hlast hover]
    exact fun hin => trimRange_spares h htarget hlt hstop hout hmap hin.1 hin.2
  intro call hcall
  unfold munmapCalls at hcall
  dsimp only at hcall
  split at hcall
  · rename_i hless
    split at hcall
    · unfold reserveCalls at hcall
      rw [trimRange_of_dvd h flags hfirst hlast (trimRange_lt cfg flags start stop)] at hcall
      dsimp only at hcall
      rw [if_neg (Nat.ne_of_lt hless),if_pos hless,mem_singleton] at hcall
      subst hcall
      exact hspread
    · rw [mem_singleton] at hcall
      subst hcall
      exact hspread
  · cases hcall

end Hqemu.Exec
