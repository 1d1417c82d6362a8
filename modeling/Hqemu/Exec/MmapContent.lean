import Hqemu.Exec.GuestFrame

/-! What the guest reads from a private mapping. -/
namespace Hqemu.Exec

open Nat List Option Paging

variable {cfg : Config} {host : Kernel} {m : HostMem} {x : Nat}

variable {start stop : Nat}

open UserPages.Rights

theorem inHost_addr (hpaged : cfg.Paged) (hstart : cfg.hostPageSize ∣ start)
    (hstop : cfg.hostPageSize ∣ stop) :
    inHost cfg start stop (x/cfg.realHostPageSize) = true ↔ start ≤ x ∧ x < stop := by
  have hpos := hpaged.realPos
  obtain ⟨j,rfl⟩ := hpaged.real.trans hstart
  obtain ⟨k,rfl⟩ := hpaged.real.trans hstop
  rw [inHost,Bool.and_eq_true,decide_eq_true_eq,decide_eq_true_eq,Nat.mul_div_cancel_left _ hpos,
    Nat.le_div_iff_mul_le hpos,Nat.mul_comm j,Nat.mul_comm _ cfg.realHostPageSize,
    Nat.mul_lt_mul_left hpos,Nat.div_lt_iff_lt_mul hpos,Nat.mul_comm k]

def HostCall.Writes (cfg : Config) (x : Nat) : HostCall → Prop
  | .mmap start stop _ _ _ => inHost cfg start stop (x/cfg.realHostPageSize) = true
  | .munmap start stop => inHost cfg start stop (x/cfg.realHostPageSize) = true
  | .pread start stop _ => start ≤ x ∧ x < stop
  | _ => False

theorem runCall_mem (host : Kernel) (m : HostMem) {call : HostCall} (h : ¬ call.Writes cfg x) :
    (runCall cfg host m call).mem x = m.mem x := by
  cases call with
  | mprotect => rfl
  | giveUp => rfl
  | pread start stop file =>
    unfold runCall
    dsimp only
    split
    · exact if_neg fun hin => h ⟨hin.1,hin.2.1⟩
    · rfl
  | _ =>
    unfold runCall
    dsimp only
    split
    · exact if_neg h
    · rfl

theorem runCalls_mem {calls : List HostCall} (h : ∀ call ∈ calls, ¬ call.Writes cfg x) :
    (runCalls cfg host calls m).1.mem x = m.mem x := by
  induction calls generalizing m with
  | nil => rfl
  | cons call rest ih =>
    have hcall := runCall_mem host m (h call (mem_cons_self ..))
    unfold runCalls
    split
    · exact hcall
    · rw [ih fun call hcall => h call (mem_cons_of_mem _ hcall),hcall]

theorem runCalls_append_ok {xs ys : List HostCall} (h : (runCalls cfg host (xs ++ ys) m).2 = true) :
    (runCalls cfg host xs m).2 = true ∧
      (runCalls cfg host ys (runCalls cfg host xs m).1).2 = true ∧
      (runCalls cfg host (xs ++ ys) m).1 = (runCalls cfg host ys (runCalls cfg host xs m).1).1 := by
  rw [runCalls_append] at h ⊢
  split at h
  · rename_i hok
    rw [if_pos hok]
    exact ⟨hok,h,rfl⟩
  · rename_i hok
    exact absurd h hok

def readByte (old : Option UInt8) (start stop : Nat) (file : Option FileMap) (x : Nat) :
    Option UInt8 :=
  match file with
  | none => old
  | some file => readBytes (fun _ => old) start stop file x

theorem readByte_file (old : Option UInt8) (data : List UInt8) (offset : Nat) (hlow : start ≤ x)
    (hhi : x < stop) :
    readByte old start stop (some ⟨data,offset⟩) x =
      if offset + (x-start) < data.length then some (data[offset+(x-start)]?.getD 0)
      else old := by
  unfold readByte readBytes
  dsimp only
  split
  · rename_i hin
    rw [if_pos hin.2.2,List.getElem?_eq_getElem hin.2.2]
    rfl
  · rename_i hout
    rw [if_neg fun hin => hout ⟨hlow,hhi,hin⟩]

theorem getD_of_le {data : List UInt8} {j : Nat} (h : ¬ j < data.length) : data[j]?.getD 0 = 0 := by
  rw [List.getElem?_eq_none (Nat.le_of_not_lt h)]
  rfl

theorem readByte_zero (data : List UInt8) (offset : Nat) (hlow : start ≤ x) (hhi : x < stop) :
    readByte (some 0) start stop (some ⟨data,offset⟩) x =
      some (data[offset+(x-start)]?.getD 0) := by
  rw [readByte_file _ _ _ hlow hhi]
  split
  · rfl
  · rename_i hend
    rw [getD_of_le hend]

section

variable {flagsOf : Nat → Nat} {realStart start stop prot : Nat} {shared : Bool}

variable {file : Option FileMap}

theorem fragRest_mem (realEnd prot1 : Nat)
    (hok : (runCalls cfg host (fragRest realStart realEnd prot1 prot start stop shared file)
      m).2 = true) :
    (runCalls cfg host (fragRest realStart realEnd prot1 prot start stop shared file) m).1.mem x =
      readByte (m.mem x) start stop file x := by
  cases file with
  | none =>
    apply runCalls_mem
    intro call hcall
    rw [eq_of_mem_ite hcall]
    exact id
  | some file =>
    have hread : ∀ m : HostMem, (HostCall.pread start stop file).succeeds cfg host m.prot = true →
        (runCalls cfg host ([.pread start stop file] ++ if prot ||| prot1 ≠ prot1 ||| pageWrite then
            [.mprotect realStart realEnd (prot ||| prot1) false] else []) m).1.mem x =
          readByte (m.mem x) start stop (some file) x := by
      intro m hdone
      rw [singleton_append,runCalls_checked rfl,if_pos hdone,runCalls_mem]
      · unfold runCall
        exact congrFun (congrArg HostMem.mem (if_pos hdone)) x
      · intro call hcall
        rw [eq_of_mem_ite hcall]
        exact id
    rw [fragRest_ok] at hok
    rcases hok with hnone | ⟨hrefuse,hall⟩
    · cases hnone
    unfold fragRest
    dsimp only
    rw [if_neg fun hand => hrefuse ⟨rfl,hand⟩]
    unfold readCalls
    rw [append_assoc]
    split
    · rw [singleton_append,runCalls_mprotect,hread]
      unfold HostCall.succeeds
      simp only [UserPages.mprotect_isSome]
      exact hall
    · exact hread m hall

theorem mmapFrag_mem (hpaged : cfg.Paged) (hdvd : cfg.hostPageSize ∣ realStart)
    (hlow : realStart ≤ x) (hhi : x < realStart+cfg.hostPageSize)
    (hok : (runCalls cfg host (mmapFrag cfg flagsOf realStart start stop prot shared file)
      m).2 = true) :
    (runCalls cfg host (mmapFrag cfg flagsOf realStart start stop prot shared file) m).1.mem x =
      readByte (if orFlags flagsOf (pagesOutside cfg realStart start stop) = 0 then some 0
        else m.mem x) start stop file x := by
  have hin := (inHost_addr hpaged hdvd (Nat.dvd_add hdvd (Nat.dvd_refl _))).mpr ⟨hlow,hhi⟩
  rw [mmapFrag_eq] at hok ⊢
  by_cases hfresh : orFlags flagsOf (pagesOutside cfg realStart start stop) = 0
  · rw [if_pos hfresh] at hok
    rw [if_pos hfresh,if_pos hfresh]
    rw [runCalls_checked rfl] at hok ⊢
    split at hok
    · rename_i hdone
      rw [if_pos hdone,fragRest_mem _ _ hok,runCall_mmap hdone]
      dsimp only [setBytes]
      rw [if_pos hin]
      rfl
    · cases hok
  · rw [if_neg hfresh] at hok
    rw [if_neg hfresh,if_neg hfresh]
    exact fragRest_mem _ _ hok

theorem mmapFrag_writes (hpaged : cfg.Paged) (hdvd : cfg.hostPageSize ∣ realStart)
    (hlow : realStart ≤ start) (hhi : stop ≤ realStart+cfg.hostPageSize)
    (hx : ¬ (realStart ≤ x ∧ x < realStart+cfg.hostPageSize)) :
    ∀ call ∈ mmapFrag cfg flagsOf realStart start stop prot shared file, ¬ call.Writes cfg x := by
  have hrest : ∀ realEnd prot1,
      ∀ call ∈ fragRest realStart realEnd prot1 prot start stop shared file,
        ¬ call.Writes cfg x := by
    intro realEnd prot1 call hcall
    rcases mem_fragRest hcall with ⟨more,rfl⟩ | ⟨data,rfl⟩ | rfl
    · exact id
    · exact fun hin => hx ⟨hlow.trans hin.1,hin.2.trans_le hhi⟩
    · exact id
  intro call hcall
  rw [mmapFrag_eq] at hcall
  split at hcall
  · rcases mem_cons.mp hcall with rfl | hcall
    · exact fun hin => hx ((inHost_addr hpaged hdvd (Nat.dvd_add hdvd (Nat.dvd_refl _))).mp hin)
    · exact hrest _ _ call hcall
  · exact hrest _ _ call hcall

inductive Place where
  | head
  | tail
  | middle
  | apart
deriving DecidableEq, Repr

def place (cfg : Config) (start stop x : Nat) : Place :=
  if hostStart cfg start < start ∧ x < hostStart cfg start + cfg.hostPageSize then .head
  else if Single cfg start stop then .apart
  else if stop < hostPageAlign cfg stop ∧ hostPageAlign cfg stop - cfg.hostPageSize ≤ x ∧
    x < hostPageAlign cfg stop then .tail
  else if middleStart cfg start ≤ x ∧ x < middleEnd cfg stop then .middle
  else .apart

def headStop (cfg : Config) (start stop : Nat) : Nat :=
  if Single cfg start stop then stop else hostStart cfg start + cfg.hostPageSize

def HeadFresh (cfg : Config) (flagsOf : Nat → Nat) (start stop : Nat) : Prop :=
  orFlags flagsOf (pagesOutside cfg (hostStart cfg start) start (headStop cfg start stop)) = 0

instance (cfg : Config) (flagsOf : Nat → Nat) (start stop : Nat) :
    Decidable (HeadFresh cfg flagsOf start stop) :=
  inferInstanceAs (Decidable (_ = _))

def fixedByte (cfg : Config) (flagsOf : Nat → Nat) (old : Option UInt8) (start stop : Nat)
    (file : Nat → Option FileMap) (x : Nat) : Option UInt8 :=
  match place cfg start stop x with
  | .head => readByte (if HeadFresh cfg flagsOf start stop then some 0 else old) start
      (headStop cfg start stop) (file 0) x
  | .tail => readByte (some 0) (hostPageAlign cfg stop - cfg.hostPageSize)
      (hostPageAlign cfg stop) (file (hostPageAlign cfg stop - cfg.hostPageSize - start)) x
  | .middle => mappedByte cfg (middleStart cfg start) (file (middleStart cfg start - start)) x
  | .apart => old

theorem place_head (h : place cfg start stop x = .head) :
    hostStart cfg start < start ∧ x < hostStart cfg start + cfg.hostPageSize := by
  unfold place at h
  split at h
  · assumption
  repeat' split at h
  all_goals cases h

theorem place_tail (h : place cfg start stop x = .tail) :
    hostPageAlign cfg stop - cfg.hostPageSize ≤ x ∧ x < hostPageAlign cfg stop := by
  unfold place at h
  split at h
  · cases h
  split at h
  · cases h
  split at h
  · rename_i htail
    exact htail.2
  split at h
  all_goals cases h

theorem head_mem (hpaged : cfg.Paged) (hx : start ≤ x)
    (hok : (runCalls cfg host (if hostStart cfg start < start then
      mmapFrag cfg flagsOf (hostStart cfg start) start (hostStart cfg start + cfg.hostPageSize)
        prot shared file else []) m).2 = true) :
    (runCalls cfg host (if hostStart cfg start < start then
      mmapFrag cfg flagsOf (hostStart cfg start) start (hostStart cfg start + cfg.hostPageSize)
        prot shared file else []) m).1.mem x =
      if hostStart cfg start < start ∧ x < hostStart cfg start + cfg.hostPageSize then
        readByte (if orFlags flagsOf (pagesOutside cfg (hostStart cfg start) start
          (hostStart cfg start + cfg.hostPageSize)) = 0 then some 0 else m.mem x) start
          (hostStart cfg start + cfg.hostPageSize) file x
      else m.mem x := by
  have hrs := hostStart_le cfg start
  have hdvd := hostStart_dvd cfg start
  by_cases hin : hostStart cfg start < start
  · rw [if_pos hin] at hok ⊢
    by_cases hlow : x < hostStart cfg start + cfg.hostPageSize
    · rw [if_pos ⟨hin,hlow⟩]
      exact mmapFrag_mem hpaged hdvd (hrs.trans hx) hlow hok
    · rw [if_neg fun hand => hlow hand.2]
      apply runCalls_mem
      exact mmapFrag_writes hpaged hdvd hrs (le_refl _) fun hand => hlow hand.2
  · rw [if_neg hin,if_neg fun hand => hin hand.1]
    rfl

theorem tail_mem (h : cfg.PageInit) (hstop : stop < 2^cfg.targetLongBits)
    (hok : (runCalls cfg host (if stop < hostPageAlign cfg stop then
      mmapFrag cfg flagsOf (hostPageAlign cfg stop - cfg.hostPageSize)
        (hostPageAlign cfg stop - cfg.hostPageSize) (hostPageAlign cfg stop) prot shared file
      else []) m).2 = true) :
    (runCalls cfg host (if stop < hostPageAlign cfg stop then
      mmapFrag cfg flagsOf (hostPageAlign cfg stop - cfg.hostPageSize)
        (hostPageAlign cfg stop - cfg.hostPageSize) (hostPageAlign cfg stop) prot shared file
      else []) m).1.mem x =
      if stop < hostPageAlign cfg stop ∧ hostPageAlign cfg stop - cfg.hostPageSize ≤ x ∧
          x < hostPageAlign cfg stop then
        readByte (some 0) (hostPageAlign cfg stop - cfg.hostPageSize) (hostPageAlign cfg stop)
          file x
      else m.mem x := by
  obtain ⟨hre,-⟩ := hostPageAlign_spec h.space hstop
  have hdvd := Nat.dvd_sub hre (Nat.dvd_refl cfg.hostPageSize)
  by_cases htail : stop < hostPageAlign cfg stop
  · have hend := hostPageAlign_tail h hstop htail
    rw [if_pos htail] at hok ⊢
    by_cases hin : hostPageAlign cfg stop - cfg.hostPageSize ≤ x ∧ x < hostPageAlign cfg stop
    · rw [if_pos ⟨htail,hin⟩,mmapFrag_mem h.paged hdvd hin.1 (hend.symm ▸ hin.2) hok,
        if_pos (tail_fresh h flagsOf hstop htail)]
    · rw [if_neg fun hand => hin hand.2]
      apply runCalls_mem
      apply mmapFrag_writes h.paged hdvd (le_refl _) hend.ge
      rwa [hend]
  · rw [if_neg htail,if_neg fun hand => htail hand.1]
    rfl

theorem middle_mem (h : cfg.PageInit) (hstart : start < 2^cfg.targetLongBits)
    (hstop : stop < 2^cfg.targetLongBits)
    (hok : (runCalls cfg host (if middleStart cfg start < middleEnd cfg stop then
      [.mmap (middleStart cfg start) (middleEnd cfg stop) prot file true] else []) m).2 = true) :
    (runCalls cfg host (if middleStart cfg start < middleEnd cfg stop then
      [.mmap (middleStart cfg start) (middleEnd cfg stop) prot file true] else []) m).1.mem x =
      if middleStart cfg start ≤ x ∧ x < middleEnd cfg stop then
        mappedByte cfg (middleStart cfg start) file x
      else m.mem x := by
  by_cases hlt : middleStart cfg start < middleEnd cfg stop
  · rw [if_pos hlt,runCalls_checked rfl] at hok ⊢
    split at hok
    · rename_i hdone
      rw [if_pos hdone,runCall_mmap hdone]
      dsimp only [runCalls,setBytes]
      simp [inHost_addr h.paged (middleStart_dvd h hstart) (middleEnd_dvd h hstop)]
    · cases hok
  · rw [if_neg hlt,if_neg fun hand => hlt (hand.1.trans_lt hand.2)]
    rfl

theorem tail_behind (h : cfg.PageInit) (hlt : start < stop) (hstop : stop < 2^cfg.targetLongBits)
    (hsingle : ¬ Single cfg start stop) (hin : hostStart cfg start < start)
    (htail : stop < hostPageAlign cfg stop) :
    hostStart cfg start + cfg.hostPageSize ≤ hostPageAlign cfg stop - cfg.hostPageSize := by
  obtain ⟨hre,-⟩ := hostPageAlign_spec h.space hstop
  have hnext := Nat.dvd_add (hostStart_dvd cfg start) (Nat.dvd_refl cfg.hostPageSize)
  by_contra hfront
  have hle := le_of_lt_add hre hnext (by omega)
  have hge := add_le_of_lt (hostStart_dvd cfg start) hre (by omega)
  have hlast := hostPageAlign_lt cfg stop
  exact hsingle ⟨hin,by rw [hostLong_of_lt h (by omega)]; omega⟩

theorem middle_behind (h : cfg.PageInit) (hlt : start < stop) (hstop : stop < 2^cfg.targetLongBits)
    (hin : hostStart cfg start < start) (hx : x < hostStart cfg start + cfg.hostPageSize) :
    ¬ (middleStart cfg start ≤ x ∧ x < middleEnd cfg stop) := by
  rintro ⟨hlow,hhi⟩
  rw [middleStart,if_pos hin] at hlow
  rcases abi_add_hostPageSize h (hlt.trans hstop) with ⟨heq,-⟩ | ⟨-,hlast⟩
  · omega
  · rw [middleEnd,hostPageAlign_last h hlt hstop hlast,if_neg (Nat.not_lt_zero _)] at hhi
    omega

theorem fixedCalls_mem (h : cfg.PageInit) {file : Nat → Option FileMap} (hlt : start < stop)
    (hstop : stop < 2^cfg.targetLongBits) (hx : start ≤ x)
    (hok : (runCalls cfg host (fixedCalls cfg flagsOf start stop prot shared file) m).2 = true) :
    (runCalls cfg host (fixedCalls cfg flagsOf start stop prot shared file) m).1.mem x =
      fixedByte cfg flagsOf (m.mem x) start stop file x := by
  have hpaged := h.paged
  have hstart := hlt.trans hstop
  have hrs := hostStart_le cfg start
  have hdvd := hostStart_dvd cfg start
  unfold fixedByte place HeadFresh headStop
  rw [fixedCalls_eq] at hok ⊢
  by_cases hsingle : Single cfg start stop
  · simp only [if_pos hsingle] at hok ⊢
    by_cases hhead : x < hostStart cfg start + cfg.hostPageSize
    · rw [if_pos ⟨hsingle.1,hhead⟩]
      exact mmapFrag_mem hpaged hdvd (hrs.trans hx) hhead hok
    · rw [if_neg fun hand => hhead hand.2]
      apply runCalls_mem
      exact mmapFrag_writes hpaged hdvd hrs (hsingle.stop_le h hstart hstop) fun hin => hhead hin.2
  · simp only [if_neg hsingle] at hok ⊢
    obtain ⟨hokFront,hokMiddle,hlast⟩ := runCalls_append_ok hok
    obtain ⟨hokHead,hokTail,hfront⟩ := runCalls_append_ok hokFront
    rw [hlast,middle_mem h hstart hstop hokMiddle,hfront,tail_mem h hstop hokTail,head_mem hpaged hx
        hokHead]
    by_cases hhead : hostStart cfg start < start ∧ x < hostStart cfg start + cfg.hostPageSize
    · have htail : ¬ (stop < hostPageAlign cfg stop ∧
          hostPageAlign cfg stop - cfg.hostPageSize ≤ x ∧ x < hostPageAlign cfg stop) := by
        rintro ⟨htail,hlow,-⟩
        have := tail_behind h hlt hstop hsingle hhead.1 htail
        omega
      rw [if_neg (middle_behind h hlt hstop hhead.1 hhead.2),if_neg htail,if_pos hhead,if_pos hhead]
    · rw [if_neg hhead,if_neg hhead]
      by_cases htail : stop < hostPageAlign cfg stop ∧
          hostPageAlign cfg stop - cfg.hostPageSize ≤ x ∧ x < hostPageAlign cfg stop
      · rw [if_pos htail,if_pos htail,if_neg]
        intro hmiddle
        rw [middleEnd,if_pos htail.1] at hmiddle
        omega
      · rw [if_neg htail,if_neg htail]
        split <;> rfl

end

/-- What the guest should read at the distance `i`. -/
def MmapRequest.expected (request : MmapRequest) (i : Nat) : UInt8 :=
  if request.anonymous then 0 else request.data[request.offset+i]?.getD 0

namespace AddressSpace

variable {a b : AddressSpace} {request : MmapRequest} {len i addr : Nat}

def RightFixed (cfg : Config) (a : AddressSpace) (request : MmapRequest) (len i : Nat) : Prop :=
  let start := request.start
  let stop := cfg.abi (start+len)
  let tailStart := hostPageAlign cfg stop - cfg.hostPageSize
  let x := start+i
  match place cfg start stop x with
  | .head => HeadFresh cfg a.flags start stop ∨
      request.anonymous = false ∧ request.offset+i < request.data.length ∨ a.mem x = some 0
  | .tail => request.anonymous = true ∨ Reads cfg request ∨
      request.data[cfg.abi (request.offset+(tailStart-start)) + (x-tailStart)]?.getD 0 =
        request.expected i
  | .middle => request.anonymous = true ∨ Reads cfg request ∨
      fileByte cfg request.data (cfg.abi (request.offset+(middleStart cfg start - start)) +
        (x - middleStart cfg start)) = some (request.expected i)
  | .apart => Reads cfg request ∧ request.offset+i < request.data.length ∨
      a.mem x = some (request.expected i)

variable {start prot : Nat}

theorem mmapFixed_mem {shared : Bool} {file : Nat → Option FileMap} (h : cfg.PageInit)
    (hrun : mmapFixed cfg host a start len prot shared file = some (b,some addr)) :
    addr = start ∧ start < cfg.abi (start+len) ∧ ∀ x, start ≤ x →
      b.mem x = fixedByte cfg a.flags (a.mem x) start (cfg.abi (start+len)) file x := by
  obtain ⟨⟨b',done⟩,hperform,hb⟩ := map_eq_some_iff.mp hrun
  cases done with
  | false => cases hb
  | true =>
    cases hb
    have hlt := perform_lt hperform
    obtain ⟨hhost,-⟩ := perform_some hperform
    obtain ⟨hhost,hok⟩ := Prod.mk.inj hhost
    refine ⟨rfl,hlt,fun x hx => ?_⟩
    have hmem := fixedCalls_mem h hlt (mod_lt _ (Nat.two_pow_pos _)) hx hok.symm
    rw [← hhost] at hmem
    exact hmem

theorem le_targetPageAlign (h : cfg.PageInit) (hlen : len < 2^cfg.targetLongBits)
    (hne : targetPageAlign cfg len ≠ 0) : len ≤ targetPageAlign cfg len := by
  have hpos := targetPageSize_pos cfg
  have hlow : len ≤ (len+cfg.targetPageSize-1) / cfg.targetPageSize * cfg.targetPageSize := by
    have := lt_div_mul_add (a := len+cfg.targetPageSize-1) hpos
    omega
  have hhi := div_mul_le_self (len+cfg.targetPageSize-1) cfg.targetPageSize
  have hfit := le_of_lt_add (Nat.dvd_mul_left cfg.targetPageSize
    ((len+cfg.targetPageSize-1) / cfg.targetPageSize)) (h.paged.target.trans h.space)
    (by omega)
  unfold targetPageAlign Config.abi at hne ⊢
  rcases Nat.lt_or_eq_of_le hfit with hlt | heq
  · rwa [mod_eq_of_lt hlt]
  · rw [heq,mod_self] at hne
    exact absurd rfl hne

theorem lt_headStop (h : cfg.PageInit) (hlen : request.len < 2^cfg.targetLongBits)
    (hadmitted : Admitted cfg request len) (hlt : request.start < cfg.abi (request.start+len))
    (hi : i < request.len) (hin : hostStart cfg request.start < request.start)
    (hx : request.start+i < hostStart cfg request.start + cfg.hostPageSize) :
    request.start+i < headStop cfg request.start (cfg.abi (request.start+len)) := by
  have hcut := hostPageSize_eq h hadmitted.cut (dvd_of_mod_eq_zero hadmitted.start)
    (not_dvd_of_hostStart_lt hin)
  have hle := le_targetPageAlign h hlen hadmitted.nonempty
  have hbound : len < 2^cfg.targetLongBits := hcut ▸ mod_lt _ (Nat.two_pow_pos _)
  have hstop := mod_lt (request.start+len) (Nat.two_pow_pos cfg.targetLongBits)
  have heq := abi_add_eq (hlt.trans hstop) hbound hlt.le.not_gt
  unfold headStop
  split
  · omega
  · exact hx

variable {old : Option UInt8}

theorem fresh_iff {fresh : Prop} [Decidable fresh] :
    (if fresh then some 0 else old) = some 0 ↔ fresh ∨ old = some 0 := by
  split
  · rename_i hfresh
    exact iff_of_true rfl (.inl hfresh)
  · rename_i hfresh
    exact (or_iff_right hfresh).symm

variable {data : List UInt8} {j : Nat}

theorem covered_iff :
    (if j < data.length then some (data[j]?.getD 0) else old) = some (data[j]?.getD 0) ↔
      j < data.length ∨ old = some (data[j]?.getD 0) := by
  split
  · rename_i hj
    exact iff_of_true rfl (.inl hj)
  · rename_i hj
    exact (or_iff_right hj).symm

theorem head_iff {fresh : Prop} [Decidable fresh] :
    (if j < data.length then some (data[j]?.getD 0) else if fresh then some 0 else old) =
        some (data[j]?.getD 0) ↔
      fresh ∨ j < data.length ∨ old = some 0 := by
  rw [covered_iff]
  by_cases hj : j < data.length
  · exact iff_of_true (.inl hj) (.inr (.inl hj))
  · rw [or_iff_right hj,or_iff_right hj,getD_of_le hj,fresh_iff]

theorem expected_anonymous (hanon : request.anonymous = true) (i : Nat) : request.expected i = 0 :=
  if_pos hanon

theorem expected_file (hfile : request.anonymous = false) (i : Nat) :
    request.expected i = request.data[request.offset+i]?.getD 0 := by
  unfold MmapRequest.expected
  rw [hfile]
  rfl

theorem file_anonymous (hanon : request.anonymous = true) (offset : Nat) :
    request.file offset = none :=
  if_pos hanon

theorem file_data (hfile : request.anonymous = false) (offset : Nat) :
    request.file offset = some ⟨request.data,offset⟩ := by
  unfold MmapRequest.file
  rw [hfile]
  rfl

theorem fixedByte_anonymous (flagsOf : Nat → Nat) (old : Option UInt8) (start stop x : Nat) :
    fixedByte cfg flagsOf old start stop (fun _ => none) x = match place cfg start stop x with
      | .head => if HeadFresh cfg flagsOf start stop then some 0 else old
      | .tail => some 0
      | .middle => some 0
      | .apart => old :=
  rfl

theorem fixedByte_iff (h : cfg.PageInit) (hlen : request.len < 2^cfg.targetLongBits)
    (hoffset : request.offset < 2^cfg.targetLongBits) (hadmitted : Admitted cfg request len)
    (hreads : ¬ Reads cfg request)
    (hlt : request.start < cfg.abi (request.start+len)) (hi : i < request.len) :
    fixedByte cfg a.flags (a.mem (request.start+i)) request.start
        (cfg.abi (request.start+len)) (fun i => request.file (cfg.abi (request.offset+i)))
        (request.start+i) = some (request.expected i) ↔ RightFixed cfg a request len i := by
  cases hanon : request.anonymous with
  | true =>
    simp only [file_anonymous hanon,expected_anonymous hanon,fixedByte_anonymous,
      RightFixed,hreads,hanon]
    cases place cfg request.start (cfg.abi (request.start+len)) (request.start+i) with
    | head =>
      rw [fresh_iff]
      simp
    | tail => simp
    | middle => simp
    | apart => simp
  | false =>
    simp only [file_data hanon,expected_file hanon,fixedByte,RightFixed,hreads,hanon]
    cases hplace : place cfg request.start (cfg.abi (request.start+len))
      (request.start+i) with
    | head =>
      obtain ⟨hin,hx⟩ := place_head hplace
      have hstop := lt_headStop h hlen hadmitted hlt hi hin hx
      have hz : cfg.abi (request.offset+0) = request.offset := mod_eq_of_lt hoffset
      rw [hz,readByte_file _ _ _ (Nat.le_add_right _ _) hstop,Nat.add_sub_cancel_left,head_iff]
      simp
    | tail =>
      obtain ⟨hlow,hhi⟩ := place_tail hplace
      rw [readByte_zero _ _ hlow hhi]
      simp
    | middle => simp [mappedByte]
    | apart => simp

theorem targetMprotect_mem {done : Bool}
    (hrun : targetMprotect cfg host a start len prot = some (b,done)) : b.mem = a.mem := by
  unfold targetMprotect at hrun
  dsimp only at hrun
  split at hrun
  · cases hrun
    rfl
  split at hrun
  · cases hrun
    rfl
  obtain ⟨hhost,-⟩ := perform_some hrun
  funext x
  have hmem := congrArg (fun r : HostMem × Bool => r.1.mem x) hhost
  refine hmem.trans (runCalls_mem fun call hcall => ?_)
  unfold mprotectCalls at hcall
  rw [mem_append,mem_append] at hcall
  rcases hcall with (hcall | hcall) | hcall
  all_goals
    rw [eq_of_mem_ite hcall]
    exact id

theorem readFile_mem {file : FileMap}
    (hrun : readFile cfg host a start len prot file = some (b,some addr)) :
    addr = start ∧ ∀ x, b.mem x = readBytes a.mem start (start+len) file x := by
  unfold readFile at hrun
  rw [show hostMem a = a.toHostMem from rfl,runCalls_checked rfl] at hrun
  by_cases hdone : (HostCall.pread start (start+len) file).succeeds cfg host a.prot = true
  · rw [if_pos hdone] at hrun
    have hmem : ∀ x, (runCall cfg host a.toHostMem (.pread start (start+len) file)).mem x =
        readBytes a.mem start (start+len) file x := by
      intro x
      exact congrFun (congrArg HostMem.mem (if_pos hdone)) x
    dsimp only [runCalls] at hrun
    split at hrun
    · obtain ⟨⟨b',done⟩,hprotect,hb⟩ := map_eq_some_iff.mp hrun
      cases done with
      | false => cases hb
      | true =>
        cases hb
        refine ⟨rfl,fun x => ?_⟩
        rw [targetMprotect_mem hprotect]
        exact hmem x
    · cases hrun
      exact ⟨rfl,hmem⟩
  · rw [if_neg hdone] at hrun
    cases hrun

theorem mmapRead_iff (h : cfg.PageInit) (hlen : request.len < 2^cfg.targetLongBits)
    (hadmitted : Admitted cfg request len) (hreads : Reads cfg request) (hi : i < request.len)
    (hrun : mmapRead cfg host a request.start len request.prot ⟨request.data,request.offset⟩ =
      some (b,some addr)) :
    b.mem (addr+i) = some (request.expected i) ↔ RightFixed cfg a request len i := by
  obtain ⟨hcut,halias⟩ := hadmitted.reads h hreads
  have hbound := le_targetPageAlign h hlen hadmitted.nonempty
  obtain ⟨⟨mid,mapped⟩,hmid,hread⟩ := bind_eq_some_iff.mp hrun
  unfold mmapAnonymous at hmid
  rw [halias,if_neg (hcut ▸ hadmitted.nonempty),if_neg hadmitted.fits] at hmid
  cases mapped with
  | none => cases hread
  | some mapped =>
    obtain ⟨-,-,hmem⟩ := mmapFixed_mem h hmid
    obtain ⟨rfl,hbytes⟩ := readFile_mem hread
    have hbyte := readByte_file (mid.mem (request.start+i)) request.data
      request.offset (Nat.le_add_right request.start i)
      (show request.start + i < request.start + len by omega)
    rw [Nat.add_sub_cancel_left] at hbyte
    rw [hbytes,expected_file hreads.1]
    refine (Eq.congr_left hbyte).trans ?_
    rw [hmem _ (Nat.le_add_right _ _),fixedByte_anonymous]
    unfold RightFixed
    dsimp only
    rw [expected_file hreads.1]
    cases place cfg request.start (cfg.abi (request.start+len)) (request.start+i) with
    | head =>
      rw [head_iff]
      simp [hreads.1]
    | apart =>
      rw [covered_iff]
      simp [hreads]
    | _ =>
      refine iff_of_true ?_ (.inr (.inl hreads))
      split
      · rfl
      · rename_i hend
        rw [getD_of_le hend]

def FileMapped (cfg : Config) (host : Kernel) (found len : Nat) : Prop :=
  found < found+len ∧ allHost cfg found (found+len) host.granted = true ∧
    host.mapsFile = true

instance (cfg : Config) (host : Kernel) (found len : Nat) :
    Decidable (FileMapped cfg host found len) :=
  inferInstanceAs (Decidable (_ ∧ _ ∧ _))

def RightAnywhere (cfg : Config) (host : Kernel) (a : AddressSpace) (request : MmapRequest)
    (found len i : Nat) : Prop :=
  let hostOffset := request.offset/cfg.hostPageSize*cfg.hostPageSize
  let hostLen := hostPageAlign cfg (len+request.offset-hostOffset)
  let x := (if request.anonymous then found else found + (request.offset-hostOffset)) + i
  if request.anonymous = false ∧ FileMapped cfg host found len ∧
      inHost cfg found (found+len) (x/cfg.realHostPageSize) then
    (request.offset+i) / cfg.realHostPageSize * cfg.realHostPageSize < request.data.length
  else if inHost cfg found (found+hostLen) (x/cfg.realHostPageSize) then
    request.expected i = 0
  else a.mem x = some (request.expected i)

theorem fileByte_iff :
    fileByte cfg data j = some (data[j]?.getD 0) ↔
      j/cfg.realHostPageSize*cfg.realHostPageSize < data.length := by
  have hpage := div_mul_le_self j cfg.realHostPageSize
  unfold fileByte
  split
  · rename_i hj
    rw [List.getElem?_eq_getElem hj]
    exact iff_of_true rfl (hpage.trans_lt hj)
  · rename_i hj
    split
    · rename_i hin
      rw [getD_of_le hj]
      exact iff_of_true rfl hin
    · rename_i hout
      exact iff_of_false (fun hnone => by cases hnone) hout

variable {found : Nat}

theorem fileMap_mem {x : Nat} (file : FileMap) (m : HostMem) :
    (runCalls cfg host [.mmap found (found+len) prot (some file) false] m).1.mem x =
      if FileMapped cfg host found len ∧
          inHost cfg found (found+len) (x/cfg.realHostPageSize) = true then
        mappedByte cfg found (some file) x
      else m.mem x := by
  have hmaps : (HostCall.mmap found (found+len) prot (some file) false).succeeds cfg host
      m.prot = true ↔ FileMapped cfg host found len := by
    rw [HostCall.succeeds,Bool.and_eq_true,Bool.and_eq_true,decide_eq_true_eq,and_assoc]
    rfl
  change (runCall cfg host m (.mmap found (found+len) prot (some file) false)).mem x = _
  by_cases hmap : FileMapped cfg host found len
  · rw [runCall_mmap (hmaps.mpr hmap)]
    dsimp only [setBytes]
    simp [hmap]
  · rw [if_neg fun hand => hmap hand.1]
    exact congrFun (congrArg HostMem.mem (if_neg fun hdone => hmap (hmaps.mp hdone))) x

theorem anywhereCalls_mem {hostLen x : Nat} {file : Option FileMap} {m : HostMem}
    (hok : (runCalls cfg host (anywhereCalls cfg found hostLen len prot file) m).2 = true) :
    (runCalls cfg host (anywhereCalls cfg found hostLen len prot file) m).1.mem x =
      if file.isSome = true ∧ FileMapped cfg host found len ∧
          inHost cfg found (found+len) (x/cfg.realHostPageSize) = true then
        mappedByte cfg found file x
      else if inHost cfg found (found+hostLen) (x/cfg.realHostPageSize) then some 0
      else m.mem x := by
  unfold anywhereCalls at hok ⊢
  obtain ⟨hokArea,-,hlast⟩ := runCalls_append_ok hok
  obtain ⟨-,hokMap,harea⟩ := runCalls_append_ok hokArea
  rw [hlast,harea]
  generalize hfound : runCalls cfg host (if cfg.reservedVa then []
    else [.mmap found (found+hostLen) 0 none false]) m = mid at hokMap ⊢
  have houtside : inHost cfg found (found+hostLen) (x/cfg.realHostPageSize) = false →
      mid.1.mem x = m.mem x := by
    intro hout
    rw [← hfound]
    apply runCalls_mem
    intro call hcall
    split at hcall
    · cases hcall
    · rw [mem_singleton.mp hcall]
      exact Bool.eq_false_iff.mp hout
  have hz : (runCalls cfg host [.mmap found (found+hostLen) prot none true] mid.1).1.mem x =
      if inHost cfg found (found+hostLen) (x/cfg.realHostPageSize) then some 0
      else m.mem x := by
    rw [runCalls_checked rfl] at hokMap ⊢
    split at hokMap
    · rename_i hdone
      rw [if_pos hdone,runCall_mmap hdone]
      dsimp only [runCalls,setBytes]
      split
      · rfl
      · rename_i hout
        exact houtside (Bool.eq_false_iff.mpr hout)
    · cases hokMap
  cases file with
  | none =>
    exact hz
  | some file =>
    rw [fileMap_mem,hz]
    simp

theorem mmapAnywhere_iff (hrun : mmapAnywhere cfg host a found len request = some (b,some addr))
    (i : Nat) :
    b.mem (addr+i) = some (request.expected i) ↔ RightAnywhere cfg host a request found len i := by
  obtain ⟨⟨b',done⟩,hperform,hb⟩ := map_eq_some_iff.mp hrun
  cases done with
  | false => cases hb
  | true =>
    cases hb
    obtain ⟨hhost,-⟩ := perform_some hperform
    obtain ⟨hhost,hok⟩ := Prod.mk.inj hhost
    rw [show b.mem = b.toHostMem.mem from rfl,hhost,anywhereCalls_mem hok.symm]
    unfold RightAnywhere
    have hle := div_mul_le_self request.offset cfg.hostPageSize
    cases hanon : request.anonymous with
    | true =>
      rw [file_anonymous hanon,expected_anonymous hanon]
      simp
    | false =>
      rw [file_data hanon,expected_file hanon]
      simp only [Bool.false_eq_true,if_false,isSome_some,true_and]
      have hbyte : mappedByte cfg found
          (some ⟨request.data,request.offset/cfg.hostPageSize*cfg.hostPageSize⟩)
          (found+(request.offset-request.offset/cfg.hostPageSize*cfg.hostPageSize) +
            i) = fileByte cfg request.data (request.offset+i) := by
        unfold mappedByte
        dsimp only
        congr 1
        omega
      rw [hbyte]
      split
      · exact fileByte_iff
      split
      · rw [some_inj]
        exact eq_comm
      · exact Iff.rfl

def Right (cfg : Config) (host : Kernel) (a : AddressSpace) (request : MmapRequest) (i : Nat) :
    Prop :=
  if targetPageAlign cfg request.len = 0 then
    a.mem (request.start+i) = some (request.expected i)
  else
    match mmapLen cfg request, request.fixed, request.found with
    | some len, true, _ => RightFixed cfg a request len i
    | some len, false, some found => RightAnywhere cfg host a request found len i
    | _, _, _ => True

theorem targetMmap_iff (h : cfg.PageInit) (hlen : request.len < 2^cfg.targetLongBits)
    (hoffset : request.offset < 2^cfg.targetLongBits)
    (hrun : targetMmap cfg host a request = some (b,some addr)) (hi : i < request.len) :
    b.mem (addr+i) = some (request.expected i) ↔ Right cfg host a request i := by
  unfold targetMmap at hrun
  dsimp only at hrun
  split at hrun
  · cases hrun
  rename_i hpage
  rw [not_not] at hpage
  unfold Right
  split at hrun
  · rename_i hempty
    cases hrun
    rw [if_pos hempty]
  rename_i hnone
  rw [if_neg hnone]
  split at hrun
  · cases hrun
  rename_i len hcut
  rw [hcut]
  split at hrun
  · rename_i hfixed
    split at hrun
    · cases hrun
    rename_i found hfound
    rw [hfixed,hfound]
    exact mmapAnywhere_iff hrun i
  rename_i hfixed
  rw [Bool.not_eq_false] at hfixed
  rw [hfixed]
  split at hrun
  · cases hrun
  rename_i hlegal
  rw [not_or,not_not] at hlegal
  split at hrun
  · rename_i hreads
    split at hrun
    · cases hrun
    rename_i href
    have hadmitted : Admitted cfg request len := ⟨hpage,hnone,hcut,hlegal.1,hlegal.2,fun _ => href⟩
    exact mmapRead_iff h hlen hadmitted hreads hi hrun
  · rename_i hreads
    have hadmitted : Admitted cfg request len := ⟨hpage,hnone,hcut,hlegal.1,hlegal.2,fun hr =>
        absurd hr hreads⟩
    obtain ⟨rfl,hlt,hmem⟩ := mmapFixed_mem h hrun
    rw [hmem _ (Nat.le_add_right _ _)]
    exact fixedByte_iff h hlen hoffset hadmitted hreads hlt hi

/-- The guest reads from a mapping what it should read. -/
theorem reads_expected_iff (cfg : Config) (h : cfg.PageInit) (host : Kernel) (a b : AddressSpace)
    (request : MmapRequest) (addr : Nat) (hlen : request.len < 2 ^ cfg.targetLongBits)
    (hoffset : request.offset < 2 ^ cfg.targetLongBits)
    (hrun : targetMmap cfg host a request = some (b, some addr)) :
    (∀ i < request.len, b.mem (addr + i) = some (request.expected i)) ↔
      ∀ i < request.len, Right cfg host a request i :=
  forall₂_congr fun _ hi => targetMmap_iff h hlen hoffset hrun hi

theorem reads_expected_iff_anonymous :
    ∃ b, targetMmap UserPages.Rights.doubleConfig UserPages.willing neighbour
        (UserPages.anonymousPage 0x2000 3) = some (b, some 0x2000) ∧
      ∀ i < 0x1000, b.mem (0x2000 + i) = some 0 := by
  have haddr : (targetMmap doubleConfig UserPages.willing neighbour
      (UserPages.anonymousPage 0x2000 3)).map Prod.snd = some (some 0x2000) := by decide +kernel
  obtain ⟨⟨b,addr⟩,hrun,rfl⟩ := map_eq_some_iff.mp haddr
  refine ⟨b,hrun,?_⟩
  refine (reads_expected_iff _ doubleConfig_pageInit _ _ b _ _ (by decide) (by decide) hrun).mpr ?_
  intro i hi
  have hi : i < 0x1000 := hi
  have hend : hostPageAlign doubleConfig 0x3000 = 0x4000 := by decide
  have hsize : doubleConfig.hostPageSize = 0x2000 := rfl
  have hplace : place doubleConfig 0x2000 (doubleConfig.abi (0x2000+0x1000)) (0x2000+i) = .tail :=
      by
    rw [show doubleConfig.abi (0x2000+0x1000) = 0x3000 by decide]
    unfold place
    rw [if_neg fun h => absurd h.1 (by decide),if_neg (by decide),if_pos]
    omega
  have hcut : mmapLen doubleConfig (UserPages.anonymousPage 0x2000 3) = some 0x1000 := by decide
  unfold Right
  rw [if_neg (by decide),hcut]
  unfold RightFixed
  dsimp only [UserPages.anonymousPage]
  rw [hplace]
  exact .inl rfl

def lowNeighbour : AddressSpace :=
  { neighbour with flags := fun page => if page = 2 then 0x1b else 0 }

/-- An anonymous mapping of the second half shows older data. -/
theorem anonymous_shows_old_data :
    ∃ b, targetMmap UserPages.Rights.doubleConfig UserPages.willing lowNeighbour
        (UserPages.anonymousPage 0x3000 3) = some (b, some 0x3000) ∧
      (UserPages.anonymousPage 0x3000 3).expected 0 = 0 ∧ b.mem 0x3000 = some 7 := by
  have hbyte : (targetMmap doubleConfig UserPages.willing lowNeighbour
      (UserPages.anonymousPage 0x3000 3)).map (fun r => (r.2,r.1.mem 0x3000)) =
        some (some 0x3000,some 7) := by decide +kernel
  obtain ⟨⟨b,addr⟩,hrun,hb⟩ := map_eq_some_iff.mp hbyte
  cases (Prod.mk.inj hb).1
  exact ⟨b,hrun,rfl,(Prod.mk.inj hb).2⟩

end AddressSpace

end Hqemu.Exec
