import Hqemu.Exec.MmapFlags
import Hqemu.Exec.HostPages

/-! What the calls to the host leave alone. They are about whole pages of
`qemu_host_page_size`, which the guest's pages share. -/
namespace Hqemu.Exec

open Nat

/-- What `page_init` leaves where `-p` has not given another size. -/
structure Config.PageInit (cfg : Config) : Prop where
  real : ∃ k, cfg.realHostPageSize = 2^k
  host : cfg.hostPageSize = max cfg.realHostPageSize cfg.targetPageSize
  fits : cfg.hostPageSize ≤ 2^cfg.targetLongBits
  bits : cfg.targetLongBits ≤ 64

theorem targetPageSize_eq (cfg : Config) : cfg.targetPageSize = 2^cfg.targetPageBits :=
  one_shiftLeft _

variable {cfg : Config}

theorem two_pow_dvd_of_le {j k : Nat} (h : 2^j ≤ 2^k) : 2^j ∣ 2^k :=
  Nat.pow_dvd_pow 2 ((Nat.pow_le_pow_iff_right (by decide)).mp h)

namespace Config.PageInit

theorem paged (h : cfg.PageInit) : cfg.Paged := by
  obtain ⟨k,hk⟩ := h.real
  refine ⟨?_,?_,?_,h.fits⟩
  · rw [h.host,hk,targetPageSize_eq]
    rcases le_total (2^k) (2^cfg.targetPageBits) with hle | hle
    · rw [max_eq_right hle]
    · rw [max_eq_left hle]
      exact two_pow_dvd_of_le hle
  · rw [h.host,hk,targetPageSize_eq]
    rcases le_total (2^k) (2^cfg.targetPageBits) with hle | hle
    · rw [max_eq_right hle]
      exact two_pow_dvd_of_le hle
    · rw [max_eq_left hle]
  · rw [h.host]
    exact lt_max_of_lt_right (targetPageSize_pos cfg)

theorem space (h : cfg.PageInit) : cfg.hostPageSize ∣ 2^cfg.targetLongBits := by
  obtain ⟨k,hk⟩ := h.real
  have hfit := h.fits
  rw [h.host,hk,targetPageSize_eq] at hfit ⊢
  rcases le_total (2^k) (2^cfg.targetPageBits) with hle | hle
  · rw [max_eq_right hle] at hfit ⊢
    exact two_pow_dvd_of_le hfit
  · rw [max_eq_left hle] at hfit ⊢
    exact two_pow_dvd_of_le hfit

end Config.PageInit

def hostBlock (cfg : Config) (page : Nat) : Nat :=
  page*cfg.targetPageSize/cfg.hostPageSize*cfg.hostPageSize

theorem le_of_lt_add {size a b : Nat} (ha : size ∣ a) (hb : size ∣ b) (h : a < b+size) : a ≤ b := by
  obtain ⟨i,rfl⟩ := ha
  obtain ⟨j,rfl⟩ := hb
  apply Nat.mul_le_mul_left
  exact le_of_lt_succ (Nat.lt_of_mul_lt_mul_left h)

theorem add_le_of_lt {size a b : Nat} (ha : size ∣ a) (hb : size ∣ b) (h : a < b) : a+size ≤ b := by
  by_contra hnot
  have := le_of_lt_add hb ha (Nat.lt_of_not_le hnot)
  omega

theorem hostBlock_dvd (cfg : Config) (page : Nat) : cfg.hostPageSize ∣ hostBlock cfg page :=
  Nat.dvd_mul_left _ _

theorem hostBlock_le (cfg : Config) (page : Nat) : hostBlock cfg page ≤ page*cfg.targetPageSize :=
  div_mul_le_self _ _

theorem lt_hostBlock (hpaged : cfg.Paged) (page : Nat) :
    page*cfg.targetPageSize+cfg.targetPageSize ≤ hostBlock cfg page + cfg.hostPageSize := by
  have hlt : page*cfg.targetPageSize < hostBlock cfg page + cfg.hostPageSize :=
    lt_div_mul_add hpaged.hostPos
  by_contra hnot
  have hdvd : cfg.targetPageSize ∣ hostBlock cfg page + cfg.hostPageSize :=
    Nat.dvd_add (hpaged.target.trans (hostBlock_dvd cfg page)) hpaged.target
  have := le_of_lt_add hdvd (Nat.dvd_mul_left _ page) (Nat.lt_of_not_le hnot)
  omega

theorem hostBlock_eq {block page : Nat} (hdvd : cfg.hostPageSize ∣ block)
    (hlow : block ≤ page*cfg.targetPageSize)
    (hhi : page*cfg.targetPageSize < block+cfg.hostPageSize) : hostBlock cfg page = block := by
  obtain ⟨k,rfl⟩ := hdvd
  unfold hostBlock
  rw [Nat.mul_comm cfg.hostPageSize k] at hlow hhi ⊢
  rw [Nat.div_eq_of_lt_le hlow (by rwa [Nat.succ_mul])]

theorem overlaps_hostBlock (hpaged : cfg.Paged) {hostPage page : Nat}
    (h : overlaps cfg hostPage page = true) : hostBlock cfg page ≤ hostPage*cfg.realHostPageSize ∧
      hostPage*cfg.realHostPageSize < hostBlock cfg page + cfg.hostPageSize := by
  rw [hostBlock,← UserPages.overlaps_host hpaged h]
  exact ⟨div_mul_le_self _ _,lt_div_mul_add hpaged.hostPos⟩

theorem inHost_iff (hpaged : cfg.Paged) {start stop hostPage page : Nat}
    (hstart : cfg.hostPageSize ∣ start) (hstop : cfg.hostPageSize ∣ stop)
    (h : overlaps cfg hostPage page = true) : inHost cfg start stop hostPage = true ↔
      start ≤ hostBlock cfg page ∧ hostBlock cfg page < stop := by
  obtain ⟨hlow,hhi⟩ := overlaps_hostBlock hpaged h
  have hdvd := hostBlock_dvd cfg page
  have hfirst : start/cfg.realHostPageSize ≤ hostPage ↔ start ≤ hostPage*cfg.realHostPageSize := by
    obtain ⟨k,rfl⟩ := hpaged.real.trans hstart
    rw [Nat.mul_div_cancel_left _ hpaged.realPos,Nat.mul_comm]
    exact (Nat.mul_le_mul_right_iff hpaged.realPos).symm
  rw [inHost,Bool.and_eq_true,decide_eq_true_eq,decide_eq_true_eq,hfirst]
  constructor
  · rintro ⟨hle,hlt⟩
    exact ⟨le_of_lt_add hstart hdvd (hle.trans_lt hhi),hlow.trans_lt hlt⟩
  · rintro ⟨hle,hlt⟩
    refine ⟨hle.trans hlow,hhi.trans_le ?_⟩
    by_contra hnot
    have := le_of_lt_add hstop hdvd (Nat.lt_of_not_le hnot)
    omega

theorem overlaps_of_mem (hpaged : cfg.Paged) {x page : Nat} (h : x/cfg.targetPageSize = page) :
    overlaps cfg (x/cfg.realHostPageSize) page = true := by
  subst h
  have hpage := div_mul_le_self x cfg.targetPageSize
  have hpage' := lt_div_mul_add (a := x) (targetPageSize_pos cfg)
  have hreal := div_mul_le_self x cfg.realHostPageSize
  have hreal' := lt_div_mul_add (a := x) hpaged.realPos
  simp only [overlaps,Nat.add_mul,Nat.one_mul,Bool.and_eq_true,decide_eq_true_eq]
  omega

def grants (hostProt : Nat → Option Nat) (hostPage i : Nat) : Bool :=
  (hostProt hostPage).any (·.testBit i)

structure KeepsHost (cfg : Config) (flags : Nat) (m m' : HostMem) (page : Nat) : Prop where
  mem : ∀ x, x/cfg.targetPageSize = page → m'.mem x = m.mem x
  rights : ∀ hostPage, overlaps cfg hostPage page = true →
    ∀ i, (flags &&& pageBits).testBit i = true → grants m.prot hostPage i = true →
      grants m'.prot hostPage i = true

theorem KeepsHost.refl (cfg : Config) (flags : Nat) (m : HostMem) (page : Nat) :
    KeepsHost cfg flags m m page :=
  ⟨fun _ _ => rfl,fun _ _ _ _ h => h⟩

theorem KeepsHost.trans {flags page : Nat} {m m' last : HostMem} (h : KeepsHost cfg flags m m' page)
    (hlast : KeepsHost cfg flags m' last page) : KeepsHost cfg flags m last page :=
  ⟨fun x hx => (hlast.mem x hx).trans (h.mem x hx),fun hostPage hover i hi hgrow =>
    hlast.rights hostPage hover i hi (h.rights hostPage hover i hi hgrow)⟩

def HostCall.Spares (cfg : Config) (flags : Nat) (hostProt : Nat → Option Nat) (page : Nat) :
    HostCall → Prop
  | .mmap start stop _ _ _ => ∀ hostPage, overlaps cfg hostPage page = true →
      inHost cfg start stop hostPage = false
  | .munmap start stop => ∀ hostPage, overlaps cfg hostPage page = true →
      inHost cfg start stop hostPage = false
  | .mprotect start stop prot _ => ∀ hostPage, overlaps cfg hostPage page = true →
      inHost cfg start stop hostPage = true → ∀ i, (flags &&& pageBits).testBit i = true →
        grants hostProt hostPage i = true → prot.testBit i = true
  | .pread start stop _ => ∀ x, x/cfg.targetPageSize = page → ¬ (start ≤ x ∧ x < stop)
  | .giveUp => True

section

variable {host : Kernel} {flags page : Nat} {m m' : HostMem} {call : HostCall}

theorem KeepsHost.remap {start stop : Nat} {value : Option Nat} {byte : Nat → Option UInt8}
    {epoch : Nat → Nat} (hpaged : cfg.Paged) (h : KeepsHost cfg flags m m' page)
    (hspread : ∀ hostPage, overlaps cfg hostPage page = true →
      inHost cfg start stop hostPage = false) :
    KeepsHost cfg flags m ⟨setRange cfg m'.prot start stop value,
      setBytes cfg m'.mem start stop byte,epoch⟩ page := by
  refine ⟨fun x hx => ?_,fun hostPage hover i hi hgrow => ?_⟩
  · dsimp only [setBytes]
    rw [hspread _ (overlaps_of_mem hpaged hx)]
    exact h.mem x hx
  · dsimp only [grants,setRange]
    rw [hspread hostPage hover]
    exact h.rights hostPage hover i hi hgrow

theorem KeepsHost.runCall (host : Kernel) (hpaged : cfg.Paged) (h : KeepsHost cfg flags m m' page)
    (hspread : call.Spares cfg flags m.prot page) :
    KeepsHost cfg flags m (Exec.runCall cfg host m' call) page := by
  cases call with
  | mmap start stop prot file checked | munmap start stop =>
    unfold Exec.runCall
    dsimp only
    split
    · exact h.remap hpaged hspread
    · exact h
  | mprotect start stop prot checked =>
    refine ⟨h.mem,fun hostPage hover i hi hgrow => ?_⟩
    unfold Exec.runCall grants Links.mprotect
    dsimp only
    split
    · rename_i hin
      apply hspread hostPage hover _ i hi hgrow
      rw [inHost,Bool.and_eq_true,decide_eq_true_eq,decide_eq_true_eq]
      exact ⟨hin.1,hin.2.1⟩
    · exact h.rights hostPage hover i hi hgrow
  | pread start stop file =>
    unfold Exec.runCall
    dsimp only
    split
    · refine ⟨fun x hx => ?_,h.rights⟩
      dsimp only [readBytes]
      rw [if_neg fun hin => hspread x hx ⟨hin.1,hin.2.1⟩]
      exact h.mem x hx
    · exact h
  | giveUp => exact h

theorem KeepsHost.runCalls {calls : List HostCall} (hpaged : cfg.Paged)
    (h : KeepsHost cfg flags m m' page) (hspread : ∀ call ∈ calls, call.Spares cfg flags m.prot
        page) :
    KeepsHost cfg flags m (Exec.runCalls cfg host calls m').1 page := by
  induction calls generalizing m' with
  | nil => exact h
  | cons call rest ih =>
    have hnext := h.runCall host hpaged (hspread call (List.mem_cons_self ..))
    unfold Exec.runCalls
    split
    · exact hnext
    · exact ih hnext fun call hcall => hspread call (List.mem_cons_of_mem _ hcall)

theorem runCalls_append (xs ys : List HostCall) (m : HostMem) :
    runCalls cfg host (xs ++ ys) m =
      if (runCalls cfg host xs m).2 then runCalls cfg host ys (runCalls cfg host xs m).1
      else runCalls cfg host xs m := by
  induction xs generalizing m with
  | nil => rfl
  | cons call rest ih =>
    rw [List.cons_append,Exec.runCalls,Exec.runCalls]
    split
    · rfl
    · exact ih _

theorem KeepsHost.append {xs ys : List HostCall} (hpaged : cfg.Paged)
    (h : KeepsHost cfg flags m (Exec.runCalls cfg host xs m').1 page)
    (hspread : (Exec.runCalls cfg host xs m').2 = true →
      ∀ call ∈ ys, call.Spares cfg flags m.prot page) :
    KeepsHost cfg flags m (Exec.runCalls cfg host (xs ++ ys) m').1 page := by
  rw [runCalls_append]
  split
  · rename_i hok
    exact h.runCalls hpaged (hspread hok)
  · exact h

theorem eq_of_mem_ite {c : Prop} [Decidable c] {other : HostCall}
    (h : call ∈ if c then [other] else []) : call = other := by
  split at h
  · exact List.mem_singleton.mp h
  · cases h

theorem runCalls_giveUp {calls : List HostCall} (h : HostCall.giveUp ∈ calls) (m : HostMem) :
    (runCalls cfg host calls m).2 = false := by
  induction calls generalizing m with
  | nil => cases h
  | cons call rest ih =>
    unfold Exec.runCalls
    split
    · rfl
    rename_i hnext
    rcases List.mem_cons.mp h with rfl | hrest
    · exact absurd rfl hnext
    · exact ih hrest _

structure Agree (x : Nat) (m m' : HostMem) : Prop where
  prot : m.prot = m'.prot
  mem : m.mem x = m'.mem x

theorem runCall_prot (cfg : Config) (host : Kernel) (h : m.prot = m'.prot) (call : HostCall) :
    (runCall cfg host m call).prot = (runCall cfg host m' call).prot := by
  cases call with
  | giveUp => exact h
  | _ =>
    unfold Exec.runCall
    dsimp only
    rw [h]
    try (split <;> first | rfl | exact h)

theorem Agree.runCall {x : Nat} (cfg : Config) (host : Kernel) (h : Agree x m m')
    (call : HostCall) : Agree x (Exec.runCall cfg host m call) (Exec.runCall cfg host m' call) := by
  refine ⟨runCall_prot cfg host h.prot call,?_⟩
  cases call with
  | giveUp => exact h.mem
  | mprotect => exact h.mem
  | _ =>
    unfold Exec.runCall
    dsimp only
    rw [h.prot]
    split
    · dsimp only [setBytes,readBytes]
      split
      · rfl
      · exact h.mem
    · exact h.mem

theorem runCalls_prot (cfg : Config) (host : Kernel) (h : m.prot = m'.prot)
    (calls : List HostCall) :
    (runCalls cfg host calls m).2 = (runCalls cfg host calls m').2 ∧
      (runCalls cfg host calls m).1.prot = (runCalls cfg host calls m').1.prot := by
  induction calls generalizing m m' with
  | nil => exact ⟨rfl,h⟩
  | cons call rest ih =>
    have hnext := runCall_prot cfg host h call
    unfold Exec.runCalls
    rw [h]
    split
    · exact ⟨rfl,hnext⟩
    · exact ih hnext

theorem Agree.runCalls {x : Nat} (cfg : Config) (host : Kernel) (h : Agree x m m')
    (calls : List HostCall) :
    Agree x (Exec.runCalls cfg host calls m).1 (Exec.runCalls cfg host calls m').1 := by
  induction calls generalizing m m' with
  | nil => exact h
  | cons call rest ih =>
    have hnext := h.runCall cfg host call
    unfold Exec.runCalls
    rw [h.prot]
    split
    · exact hnext
    · exact ih hnext

theorem runCall_mmap {start stop prot : Nat} {file : Option FileMap} {checked : Bool}
    (h : (HostCall.mmap start stop prot file checked).succeeds cfg host m.prot = true) :
    runCall cfg host m (.mmap start stop prot file checked) =
      ⟨setRange cfg m.prot start stop (some prot),
        setBytes cfg m.mem start stop (mappedByte cfg start file),
        replace m.epoch (touches cfg start stop)⟩ :=
  if_pos h

theorem Agree.of_mmap {start stop prot x : Nat} {file : Option FileMap} {checked : Bool}
    (xs ys : List HostCall) (h : m.prot = m'.prot) (hok : (Exec.runCalls cfg host xs m).2 = true)
    (hlt : start < stop) (hgrant : allHost cfg start stop host.granted = true)
    (hmaps : (file.isNone || host.mapsFile) = true)
    (hin : inHost cfg start stop (x/cfg.realHostPageSize) = true) :
    Agree x (Exec.runCalls cfg host (xs ++ .mmap start stop prot file checked :: ys) m).1
      (Exec.runCalls cfg host (xs ++ .mmap start stop prot file checked :: ys) m').1 := by
  obtain ⟨hsame,hprot⟩ := runCalls_prot cfg host h xs
  have hdone : ∀ p, (HostCall.mmap start stop prot file checked).succeeds cfg host p = true := by
    intro p
    rw [HostCall.succeeds,hgrant,hmaps,Bool.and_true,Bool.and_true,decide_eq_true_eq]
    exact hlt
  rw [runCalls_append,runCalls_append,← hsame,hok,if_pos rfl,if_pos rfl,Exec.runCalls,Exec.runCalls]
  rw [hdone,hdone,Bool.not_true,Bool.and_false]
  apply Agree.runCalls
  refine ⟨runCall_prot cfg host hprot _,?_⟩
  rw [runCall_mmap (hdone _),runCall_mmap (hdone _)]
  dsimp only [setBytes]
  rw [if_pos hin,if_pos hin]

end

end Hqemu.Exec
