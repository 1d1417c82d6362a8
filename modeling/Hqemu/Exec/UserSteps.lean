import Hqemu.Exec.UserFlags

/-! What the guest's calls, write faults and translations do to the blocks and the flags of
the pages. -/
namespace Hqemu.Exec

open Nat Function Option Lib.Chain Links Exec.Graph

structure Config.Paged (cfg : Config) : Prop where
  target : cfg.targetPageSize ∣ cfg.hostPageSize
  real : cfg.realHostPageSize ∣ cfg.hostPageSize
  hostPos : 0 < cfg.hostPageSize
  fits : cfg.hostPageSize ≤ 2^cfg.targetLongBits

variable {cfg : Config}

open World

theorem Config.Paged.realPos (h : cfg.Paged) : 0 < cfg.realHostPageSize :=
  pos_of_dvd_of_pos h.real h.hostPos

def SameHost (cfg : Config) (addr p : Nat) : Prop :=
  addr/cfg.hostPageSize*cfg.hostPageSize/cfg.targetPageSize ≤ p ∧
    p < addr/cfg.hostPageSize*cfg.hostPageSize/cfg.targetPageSize +
      cfg.hostPageSize/cfg.targetPageSize

instance (cfg : Config) (addr p : Nat) : Decidable (SameHost cfg addr p) :=
  inferInstanceAs (Decidable (_ ∧ _))

theorem sameHost_iff (hpaged : cfg.Paged) (addr p : Nat) :
    SameHost cfg addr p ↔ p*cfg.targetPageSize/cfg.hostPageSize = addr/cfg.hostPageSize := by
  obtain ⟨k,hk⟩ := hpaged.target
  have hpos := targetPageSize_pos cfg
  have hkpos : 0 < k := by
    have := hpaged.hostPos
    rw [hk] at this
    exact Nat.pos_of_mul_pos_left this
  have hfirst : addr/cfg.hostPageSize*cfg.hostPageSize/cfg.targetPageSize =
      addr/cfg.hostPageSize*k := by
    rw [hk,Nat.mul_left_comm,Nat.mul_div_cancel_left _ hpos]
  have hcount : cfg.hostPageSize/cfg.targetPageSize = k := by
    rw [hk,Nat.mul_div_cancel_left _ hpos]
  have hpage : p*cfg.targetPageSize/cfg.hostPageSize = p/k := by
    rw [hk,Nat.mul_comm p,Nat.mul_div_mul_left _ _ hpos]
  rw [SameHost,hfirst,hcount,hpage,Nat.div_eq_iff hkpos]
  omega

theorem sameHost_self (hpaged : cfg.Paged) (addr : Nat) : SameHost cfg addr (pageIndex cfg addr) :=
    by
  rw [sameHost_iff hpaged,pageIndex]
  obtain ⟨k,hk⟩ := hpaged.target
  rw [hk,← Nat.div_div_eq_div_mul,← Nat.div_div_eq_div_mul,
    Nat.mul_div_cancel _ (targetPageSize_pos cfg)]

theorem and_pageWrite_eq_zero (x : Nat) : x &&& pageWrite = 0 ↔ x.testBit 1 = false := by
  have hbit : x &&& pageWrite = (x.testBit 1).toNat * 2^1 := and_two_pow x 1
  rw [hbit]
  cases x.testBit 1 <;> simp

theorem testBit_pageWrite (i : Nat) : pageWrite.testBit i = decide (i = 1) := by
  have hpow : pageWrite = 2^1 := rfl
  rw [hpow,testBit_two_pow]
  simp [eq_comm]

theorem clearWrite_testBit (x i : Nat) :
    (x ^^^ (x &&& pageWrite)).testBit i = (x.testBit i && decide (i ≠ 1)) := by
  rw [testBit_xor,testBit_and,testBit_pageWrite]
  by_cases hi : i = 1
  · simp [hi]
  · simp [hi]

namespace UserPages

variable {n : Nat} {cfg : Config} {s next : UserPages n} {tb : TbId}

theorem pageFlags_protectPage (links : Links) (addr p : Nat) :
    pageFlags (links.protectPage cfg addr) p =
      if pageFlags links (pageIndex cfg addr) &&& pageWrite ≠ 0 ∧ SameHost cfg addr p then
        pageFlags links p ^^^ (pageFlags links p &&& pageWrite)
      else pageFlags links p := by
  unfold pageFlags protectPage SameHost
  by_cases hwrite : (links.pageDesc (pageIndex cfg addr)).flags &&& pageWrite = 0
  · simp [hwrite]
  simp only [hwrite,if_false,not_false_eq_true,true_and,ne_eq]
  split
  · rfl
  · rfl

structure SameProt (links other : Links) : Prop where
  flags : pageFlags links = pageFlags other
  hostProt : links.hostProt = other.hostProt

variable {links : Links}

theorem SameProt.trans {other last : Links} (h : SameProt links other)
    (hlast : SameProt other last) : SameProt links last :=
  ⟨h.flags.trans hlast.flags,h.hostProt.trans hlast.hostProt⟩

theorem SameProt.protectPage {other : Links} (h : SameProt links other) (addr : Nat) :
    SameProt (links.protectPage cfg addr) (other.protectPage cfg addr) := by
  refine ⟨funext fun p => ?_,?_⟩
  · rw [pageFlags_protectPage,pageFlags_protectPage,h.flags]
  have hflags : ∀ p, (links.pageDesc p).flags = (other.pageDesc p).flags := congrFun h.flags
  simp only [Links.protectPage,hflags,h.hostProt]
  split
  · exact h.hostProt
  · rfl

theorem sameProt_tbAllocPage (links : Links) (tb : TbId) (m : Slot) (addr : Nat) :
    SameProt (links.tbAllocPage cfg tb m addr) (links.protectPage cfg addr) := by
  unfold tbAllocPage
  apply SameProt.protectPage
  exact ⟨funext (keepsPages_invalidatePageBitmap _ _).flags,rfl⟩

theorem sameProt_tbLinkPage (links : Links) (tb : TbId) (nextOffset : Slot → Option Nat)
    (physPc : Nat) (physPage2 : Option Nat) :
    SameProt (links.tbLinkPage cfg tb nextOffset physPc physPage2)
      (physPage2.elim (links.protectPage cfg (pageAlign cfg physPc))
        ((links.protectPage cfg (pageAlign cfg physPc)).protectPage cfg)) := by
  have hfirst : SameProt ((links.setHash (.next tb) (links.hash (.bucket (tbPhysHashFunc physPc)))
      |>.setHash (.bucket (tbPhysHashFunc physPc)) (some tb)).tbAllocPage cfg tb 0
        (pageAlign cfg physPc)) (links.protectPage cfg (pageAlign cfg physPc)) := by
    apply (sameProt_tbAllocPage _ tb 0 _).trans
    apply SameProt.protectPage
    exact ⟨rfl,rfl⟩
  cases physPage2 with
  | none =>
    refine SameProt.trans ?_ hfirst
    unfold tbLinkPage
    dsimp only
    generalize Links.tbAllocPage cfg _ tb 0 _ = alloced
    split <;> split <;> exact ⟨rfl,rfl⟩
  | some page2 =>
    refine SameProt.trans ?_ ((sameProt_tbAllocPage _ tb 1 page2).trans (hfirst.protectPage _))
    unfold tbLinkPage
    dsimp only
    generalize Links.tbAllocPage cfg _ tb 1 _ = alloced
    split <;> split <;> exact ⟨rfl,rfl⟩

variable {p : Nat} {w : World n} {c : Fin n}

theorem tbFlush_pageFlags {w' : World n} (h : w.tbFlush cfg c = some w') :
    pageFlags w'.links = pageFlags w.links ∧ w'.links.hostProt = w.links.hostProt ∧
      ∀ p, w'.links.page (.firstTb p) = none := by
  unfold World.tbFlush at h
  split at h
  · cases h
  · cases h
    exact ⟨rfl,rfl,fun _ => rfl⟩

theorem setsFlags_unprotectPage
    (hnext : (s.setFlags p (pageFlags s.links p ||| pageWrite)).tbInvalidatePhysPage cfg p =
      some next) : SetsFlags s next (· = p) (pageFlags s.links p ||| pageWrite) := by
  obtain ⟨hkeeps,hflags⟩ := keeps_tbInvalidatePhysPage hnext
  have hset : Keeps s (s.setFlags p (pageFlags s.links p ||| pageWrite)) :=
    ⟨rfl,rfl,rfl,rfl,Finset.Subset.refl _,rfl,rfl⟩
  refine ⟨hset.trans hkeeps,fun q hq => ?_,fun q hq => ?_⟩
  · rw [hflags,pageFlags_setFlags,if_pos hq]
  · rw [hflags,pageFlags_setFlags,if_neg hq]

structure Unprotects (s next : UserPages n) (pages : Nat → Prop)
    [DecidablePred pages] : Prop where
  keeps : Keeps s next
  flags : ∀ p, pageFlags next.links p =
    if pages p then pageFlags s.links p ||| pageWrite else pageFlags s.links p

theorem unprotects_unprotectPages {count first prot prot' : Nat}
    (hnext : UserPages.unprotectPages cfg count first s prot = some (next,prot')) :
    Unprotects s next fun p => first ≤ p ∧ p < first+count := by
  induction count generalizing s first prot with
  | zero =>
    cases hnext
    refine ⟨Keeps.refl _,fun p => ?_⟩
    rw [if_neg (by omega)]
  | succ count ih =>
    simp only [UserPages.unprotectPages,bind_eq_bind,bind_eq_some_iff] at hnext
    obtain ⟨mid,hmid,hnext⟩ := hnext
    have hsets := setsFlags_unprotectPage hmid
    have hrest := ih hnext
    refine ⟨hsets.toKeeps.trans hrest.keeps,fun p => ?_⟩
    rw [hrest.flags]
    by_cases hfirst : p = first
    · rw [if_neg (by omega),if_pos (by omega),hsets.inside p hfirst,hfirst]
    rw [hsets.outside p hfirst]
    apply if_congr _ rfl rfl
    omega

def Faults (cfg : Config) (s : UserPages n) (address : Nat) : Prop :=
  pageFlags s.links (pageIndex cfg address) &&& pageWriteOrg ≠ 0 ∧
    pageFlags s.links (pageIndex cfg address) &&& pageWrite = 0

def InFault (cfg : Config) (address : Nat) (leave : Option Nat) (p : Nat) : Prop :=
  let hostStart := address/cfg.hostPageSize*cfg.hostPageSize
  hostStart/cfg.targetPageSize ≤ p ∧ p < hostStart/cfg.targetPageSize +
    leave.elim (hostPages cfg hostStart) (min · (hostPages cfg hostStart))

instance (cfg : Config) (address : Nat) (leave : Option Nat) (p : Nat) :
    Decidable (InFault cfg address leave p) :=
  inferInstanceAs (Decidable (_ ∧ _))

theorem pageUnprotect_some {address : Nat} {leave : Option Nat}
    (hnext : s.pageUnprotect cfg address leave = some next) :
    ¬ Faults cfg s address ∧ next = s ∨
      Faults cfg s address ∧ ∃ mid, Unprotects s mid (InFault cfg address leave) ∧
        (next = mid ∨ leave = none ∧ ∃ prot,
          (hostPages cfg (address/cfg.hostPageSize*cfg.hostPageSize) = 0 → prot = 0) ∧
          next = mid.setHostProt (Links.mprotect cfg (fun _ => true) mid.links.hostProt
            (address/cfg.hostPageSize*cfg.hostPageSize)
            (address/cfg.hostPageSize*cfg.hostPageSize+cfg.hostPageSize) prot)) := by
  unfold UserPages.pageUnprotect at hnext
  dsimp only at hnext
  split at hnext
  · rename_i hfaults
    refine .inr ⟨hfaults,?_⟩
    cases leave with
    | some done =>
      simp only [bind_eq_bind,bind_eq_some_iff,Prod.exists] at hnext
      obtain ⟨mid,prot,hmid,hnext⟩ := hnext
      cases hnext
      exact ⟨_,unprotects_unprotectPages hmid,.inl rfl⟩
    | none =>
      simp only [bind_eq_bind,bind_eq_some_iff,Prod.exists] at hnext
      obtain ⟨mid,prot,hmid,hnext⟩ := hnext
      cases hnext
      refine ⟨mid,unprotects_unprotectPages hmid,.inr ⟨rfl,_,fun hz => ?_,rfl⟩⟩
      rw [hz] at hmid
      cases hmid
      rfl
  · rename_i hfaults
    cases hnext
    exact .inl ⟨hfaults,rfl⟩

end UserPages

end Hqemu.Exec
