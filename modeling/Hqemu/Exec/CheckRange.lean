import Hqemu.Exec.HostPages

/-! `page_check_range`, with which system calls test the buffers of the guest. -/
namespace Hqemu.Exec

open Nat Lib.Run Links

def pageRead : Nat := 0x0001
def pageExec : Nat := 0x0004

namespace UserPages

variable {n : Nat} {cfg : Config} {s next : UserPages n}

/-- The loop; the result is true for a return value of 0. With `PAGE_WRITE` it is left after
the first page. -/
def checkPages (cfg : Config) (flags : Nat) :
    Nat → Nat → UserPages n → Option (UserPages n × Bool)
  | 0, _, s => some (s,true)
  | count+1, page, s =>
    let p := pageFlags s.links page
    if p &&& pageValid = 0 then some (s,false)
    else if flags &&& pageRead ≠ 0 ∧ p &&& pageRead = 0 then some (s,false)
    else if flags &&& pageWrite ≠ 0 then
      if p &&& pageWriteOrg = 0 then some (s,false)
      else if p &&& pageWrite = 0 then
        (s.pageUnprotect cfg (page*cfg.targetPageSize) none).map (·,true)
      else some (s,true)
    else checkPages cfg flags count (page+1) s

/-- The length of a range that is the whole address space is 0 again once it is rounded. -/
def pageCheckRange (cfg : Config) (s : UserPages n) (start len flags : Nat) :
    Option (UserPages n × Bool) :=
  if len = 0 then some (s,true)
  else if cfg.abi (start+len-1) < start then some (s,false)
  else
    let stop := targetPageAlign cfg (start+len)
    let start := pageAlign cfg start
    let len := cfg.abi (stop+2^cfg.targetLongBits-start)
    checkPages cfg flags (len/cfg.targetPageSize) (pageIndex cfg start) s

/-- The page is valid and has the rights asked for; a page that was protected because of its
code counts as writable. -/
def Grants (flags p : Nat) : Prop :=
  p &&& pageValid ≠ 0 ∧ (flags &&& pageRead ≠ 0 → p &&& pageRead ≠ 0) ∧
    (flags &&& pageWrite ≠ 0 → p &&& pageWriteOrg ≠ 0) ∧
    (flags &&& pageExec ≠ 0 → p &&& pageExec ≠ 0)

/-- A range with bytes in it is accepted only if all its pages grant the rights, and can then be
written. -/
def ChecksRange (cfg : Config) (s : UserPages n) (start len flags : Nat) : Prop :=
  len ≠ 0 → ∀ next, s.pageCheckRange cfg start len flags = some (next,true) →
    ∀ p, InPages cfg start (start+len) p → Grants flags (pageFlags s.links p) ∧
      (flags &&& pageWrite ≠ 0 → pageFlags next.links p &&& pageWrite ≠ 0)

/-- What is tested of a page: execution is not. -/
def Passes (flags p : Nat) : Prop :=
  p &&& pageValid ≠ 0 ∧ (flags &&& pageRead ≠ 0 → p &&& pageRead ≠ 0) ∧
    (flags &&& pageWrite ≠ 0 → p &&& pageWriteOrg ≠ 0)

def Whole (cfg : Config) (start len : Nat) : Prop :=
  pageIndex cfg start = 0 ∧ 2^cfg.targetLongBits < start+len+cfg.targetPageSize

instance (cfg : Config) (start len : Nat) : Decidable (Whole cfg start len) :=
  inferInstanceAs (Decidable (_ ∧ _))

/-- The pages that are looked at: none of the whole address space, and only the first one when
write access is asked for. -/
def Looks (cfg : Config) (start len flags p : Nat) : Prop :=
  ¬ Whole cfg start len ∧ InPages cfg start (start+len) p ∧
    (flags &&& pageWrite ≠ 0 → p = pageIndex cfg start)

def Opens (cfg : Config) (s : UserPages n) (start len p : Nat) : Prop :=
  ¬ Whole cfg start len ∧ pageFlags s.links (pageIndex cfg start) &&& pageWrite = 0 ∧
    InFault cfg (pageAlign cfg start) none p

/-- Where the pages looked at pass, all pages have what is not tested: the right to execute, all
rights of the other pages, and `PAGE_WRITE`, unless it comes with the first page. -/
def Suffices (cfg : Config) (s : UserPages n) (start len flags : Nat) : Prop :=
  len ≠ 0 → start+len ≤ 2^cfg.targetLongBits →
    (∀ p, Looks cfg start len flags p → Passes flags (pageFlags s.links p)) →
      ∀ p, InPages cfg start (start+len) p →
        (flags &&& pageExec ≠ 0 → pageFlags s.links p &&& pageExec ≠ 0) ∧
        (¬ Looks cfg start len flags p → Passes flags (pageFlags s.links p)) ∧
        (flags &&& pageWrite ≠ 0 →
          pageFlags s.links p &&& pageWrite ≠ 0 ∨ Opens cfg s start len p)

theorem grants_iff {flags p : Nat} :
    Grants flags p ↔ Passes flags p ∧ (flags &&& pageExec ≠ 0 → p &&& pageExec ≠ 0) := by
  simp only [Grants,Passes,and_assoc]

theorem checkPages_some {flags count first : Nat} {ok : Bool}
    (h : checkPages cfg flags count first s = some (next,ok)) :
    (ok = true ↔ ∀ p, first ≤ p → p < first+count →
      (flags &&& pageWrite ≠ 0 → p = first) → Passes flags (pageFlags s.links p)) ∧
    (ok = true → ∀ p, pageFlags next.links p =
      if flags &&& pageWrite ≠ 0 ∧ count ≠ 0 ∧ pageFlags s.links first &&& pageWrite = 0 ∧
        InFault cfg (first*cfg.targetPageSize) none p
      then pageFlags s.links p ||| pageWrite else pageFlags s.links p) := by
  induction count generalizing first with
  | zero =>
    cases h
    refine ⟨iff_of_true rfl fun p hlow hhi => ?_,fun _ p => ?_⟩
    · omega
    · simp
  | succ count ih =>
    have hfail : ¬ Passes flags (pageFlags s.links first) → (false = true ↔ ∀ p, first ≤ p →
        p < first+(count+1) → (flags &&& pageWrite ≠ 0 → p = first) →
          Passes flags (pageFlags s.links p)) := by
      intro hnot
      refine iff_of_false Bool.false_ne_true fun hall => hnot ?_
      exact hall first (le_refl _) (by omega) fun _ => rfl
    unfold checkPages at h
    dsimp only at h
    split at h
    · rename_i hval
      cases h
      exact ⟨hfail fun hpasses => hpasses.1 hval,nofun⟩
    rename_i hval
    split at h
    · rename_i hread
      cases h
      exact ⟨hfail fun hpasses => hpasses.2.1 hread.1 hread.2,nofun⟩
    rename_i hread
    split at h
    · rename_i hwrite
      split at h
      · rename_i horigin
        cases h
        exact ⟨hfail fun hpasses => hpasses.2.2 hwrite horigin,nofun⟩
      rename_i horigin
      have hpasses : Passes flags (pageFlags s.links first) :=
        ⟨hval,fun hreq hz => hread ⟨hreq,hz⟩,fun _ => horigin⟩
      have hall : ∀ p, first ≤ p → p < first+(count+1) →
          (flags &&& pageWrite ≠ 0 → p = first) → Passes flags (pageFlags s.links p) :=
        fun p _ _ hp => hp hwrite ▸ hpasses
      split at h
      · rename_i hclear
        obtain ⟨s',hs',hok⟩ := Option.map_eq_some_iff.mp h
        cases hok
        refine ⟨iff_of_true rfl hall,fun _ p => ?_⟩
        have hpage : pageIndex cfg (first*cfg.targetPageSize) = first :=
          Nat.mul_div_cancel _ (targetPageSize_pos cfg)
        have hfaults : Faults cfg s (first*cfg.targetPageSize) := by
          rw [Faults,hpage]
          exact ⟨horigin,hclear⟩
        obtain ⟨-,mid,hmid,hnext⟩ := (pageUnprotect_some hs').resolve_left fun hnot => hnot.1
            hfaults
        have hflags : pageFlags next.links = pageFlags mid.links := by
          rcases hnext with rfl | ⟨-,prot,-,rfl⟩ <;> rfl
        rw [hflags,hmid.flags]
        simp [hwrite,hclear]
      · rename_i hclear
        cases h
        refine ⟨iff_of_true rfl hall,fun _ p => ?_⟩
        rw [if_neg fun hand => hclear hand.2.2.1]
    · rename_i hwrite
      obtain ⟨hiff,hflags⟩ := ih h
      have hpasses : Passes flags (pageFlags s.links first) :=
        ⟨hval,fun hreq hz => hread ⟨hreq,hz⟩,fun hreq => absurd hreq hwrite⟩
      refine ⟨hiff.trans ⟨fun hall p hlow hhi hp => ?_,fun hall p hlow hhi _ => ?_⟩,fun hok p => ?_⟩
      · by_cases hfirst : p = first
        · exact hfirst ▸ hpasses
        · exact hall p (by omega) (by omega) fun hreq => absurd hreq hwrite
      · exact hall p (by omega) (by omega) fun hreq => absurd hreq hwrite
      · rw [hflags hok,if_neg fun hand => hwrite hand.1,if_neg fun hand => hwrite hand.1]

theorem mul_sub_mod {size pages first last : Nat} (hpos : 0 < size) (hfirst : first < last)
    (hlast : last ≤ pages) :
    (last*size%(pages*size) + pages*size-first*size) % (pages*size) / size =
      if first = 0 ∧ last = pages then 0 else last - first := by
  have hmod : last*size%(pages*size) + pages*size-first*size = (last%pages+pages-first) * size := by
    rw [mul_mod_mul_right,Nat.sub_mul,Nat.add_mul]
  rw [hmod,mul_mod_mul_right,Nat.mul_div_cancel _ hpos]
  rcases Nat.lt_or_eq_of_le hlast with hlt | rfl
  · rw [mod_eq_of_lt hlt,if_neg (by omega),Nat.add_comm,Nat.add_sub_assoc (by omega),
      add_mod_left,mod_eq_of_lt (by omega)]
  · rw [mod_self,Nat.zero_add]
    split
    · rename_i hz
      rw [hz.1,Nat.sub_zero,mod_self]
    · exact mod_eq_of_lt (by omega)

theorem checkCount {start len : Nat} (hbits : cfg.targetPageBits ≤ cfg.targetLongBits)
    (hlen : len ≠ 0) (hfit : start+len ≤ 2^cfg.targetLongBits) :
    cfg.abi (targetPageAlign cfg (start+len) + 2^cfg.targetLongBits - pageAlign cfg start) /
        cfg.targetPageSize =
      if Whole cfg start len then 0
      else (start+len+cfg.targetPageSize-1) / cfg.targetPageSize - pageIndex cfg start := by
  have hpos := targetPageSize_pos cfg
  have hspace : 2^cfg.targetLongBits =
      2^(cfg.targetLongBits-cfg.targetPageBits) * cfg.targetPageSize := by
    rw [Config.targetPageSize,one_shiftLeft,← Nat.pow_add,Nat.sub_add_cancel hbits]
  have hfirst : pageIndex cfg start < (start+len+cfg.targetPageSize-1) / cfg.targetPageSize := by
    rw [lt_ceilDiv hpos]
    have := div_mul_le_self start cfg.targetPageSize
    unfold pageIndex
    omega
  have hlast : (start+len+cfg.targetPageSize-1) / cfg.targetPageSize ≤
      2^(cfg.targetLongBits-cfg.targetPageBits) := by
    rw [← Nat.not_lt,lt_ceilDiv hpos,← hspace]
    omega
  have hwhole : 2^cfg.targetLongBits < start+len+cfg.targetPageSize ↔
      (start+len+cfg.targetPageSize-1) / cfg.targetPageSize =
        2^(cfg.targetLongBits-cfg.targetPageBits) := by
    have hle := Nat.le_div_iff_mul_le hpos (x := 2^(cfg.targetLongBits-cfg.targetPageBits))
      (y := start+len+cfg.targetPageSize-1)
    omega
  simp only [targetPageAlign,Config.abi,pageAlign,Whole,hwhole]
  rw [hspace]
  exact mul_sub_mod hpos hfirst hlast

theorem abi_lt_iff {start len : Nat} (hstart : start < 2^cfg.targetLongBits)
    (hlen : len < 2^cfg.targetLongBits) (hpos : len ≠ 0) :
    cfg.abi (start+len-1) < start ↔ 2^cfg.targetLongBits < start+len := by
  unfold Config.abi
  by_cases hfit : start+len-1 < 2^cfg.targetLongBits
  · rw [mod_eq_of_lt hfit]
    omega
  · rw [mod_eq_sub_mod (Nat.le_of_not_lt hfit),mod_eq_of_lt (by omega)]
    omega

theorem pageCheckRange_some {start len flags : Nat} {ok : Bool}
    (hbits : cfg.targetPageBits ≤ cfg.targetLongBits) (hpos : len ≠ 0)
    (hstart : start < 2^cfg.targetLongBits) (hlen : len < 2^cfg.targetLongBits)
    (hfit : start+len ≤ 2^cfg.targetLongBits)
    (h : s.pageCheckRange cfg start len flags = some (next,ok)) :
    (ok = true ↔ ∀ p, Looks cfg start len flags p → Passes flags (pageFlags s.links p)) ∧
    (ok = true → flags &&& pageWrite ≠ 0 → ∀ p, pageFlags next.links p &&& pageWrite ≠ 0 ↔
      pageFlags s.links p &&& pageWrite ≠ 0 ∨ Opens cfg s start len p) := by
  have hwrap : ¬ cfg.abi (start+len-1) < start := by
    rw [abi_lt_iff hstart hlen hpos]
    omega
  unfold pageCheckRange at h
  rw [if_neg hpos,if_neg hwrap] at h
  dsimp only at h
  rw [checkCount hbits hpos hfit,Graph.pageIndex_pageAlign] at h
  obtain ⟨hiff,hflags⟩ := checkPages_some h
  have hor : ∀ x : Nat, (x ||| pageWrite) &&& pageWrite ≠ 0 := by
    intro x hz
    rw [Nat.and_or_distrib_right,Nat.or_eq_zero_iff] at hz
    exact absurd hz.2 (by decide)
  by_cases hwhole : Whole cfg start len
  · rw [if_pos hwhole] at hiff hflags
    refine ⟨hiff.trans (iff_of_true (fun p _ _ => ?_) fun p hp => absurd hwhole hp.1),
      fun hok _ p => ?_⟩
    · omega
    · rw [hflags hok,if_neg fun hand => hand.2.1 rfl]
      exact ⟨.inl,fun h => h.resolve_right fun hopens => hopens.1 hwhole⟩
  · rw [if_neg hwhole] at hiff hflags
    have hpages := inPages_iff cfg start (start+len)
    refine ⟨hiff.trans ⟨fun hall p hp => ?_,fun hall p hlow hhi hp => ?_⟩,fun hok hwrite p => ?_⟩
    · obtain ⟨-,hin,hfirst⟩ := hp
      have hrange := (hpages p).mp hin
      exact hall p hrange.1 hrange.2 hfirst
    · exact hall p ⟨hwhole,(hpages p).mpr ⟨hlow,hhi⟩,hp⟩
    · have hcount : (start+len+cfg.targetPageSize-1) / cfg.targetPageSize -
          pageIndex cfg start ≠ 0 := by
        have := (lt_ceilDiv (targetPageSize_pos cfg) (pageIndex cfg start) (start+len)).mpr
          (by
            have := div_mul_le_self start cfg.targetPageSize
            unfold pageIndex
            omega)
        omega
      rw [hflags hok]
      split
      · rename_i hopens
        exact iff_of_true (hor _) (.inr ⟨hwhole,hopens.2.2⟩)
      · rename_i hnot
        refine ⟨.inl,fun h => h.resolve_right fun hopens => hnot ?_⟩
        exact ⟨hwrite,hcount,hopens.2.1,hopens.2.2⟩

/-- A range is accepted rightly exactly if the pages that are looked at speak for all. -/
theorem checksRange_iff {n : Nat} (cfg : Config) (s : UserPages n) (start len flags : Nat)
    (hbits : cfg.targetPageBits ≤ cfg.targetLongBits) (hstart : start < 2 ^ cfg.targetLongBits)
    (hlen : len < 2 ^ cfg.targetLongBits)
    (hreturns : (s.pageCheckRange cfg start len flags).isSome = true) :
    ChecksRange cfg s start len flags ↔ Suffices cfg s start len flags := by
  obtain ⟨⟨next,ok⟩,hsome⟩ := Option.isSome_iff_exists.mp hreturns
  by_cases hpos : len = 0
  · exact iff_of_true (fun hne => absurd hpos hne) fun hne => absurd hpos hne
  by_cases hfit : start+len ≤ 2^cfg.targetLongBits
  · obtain ⟨hiff,hopens⟩ := pageCheckRange_some hbits hpos hstart hlen hfit hsome
    constructor
    · intro hchecks _ _ hlooks p hp
      have hok := hiff.mpr hlooks
      obtain ⟨hgrants,hwritten⟩ := hchecks hpos next (hok ▸ hsome) p hp
      obtain ⟨hpasses,hexec⟩ := grants_iff.mp hgrants
      exact ⟨hexec,fun _ => hpasses,fun hwrite => (hopens hok hwrite p).mp (hwritten hwrite)⟩
    · intro hsuffices _ next' hnext p hp
      cases hsome.symm.trans hnext
      obtain ⟨hexec,hrest,hwritten⟩ := hsuffices hpos hfit (hiff.mp rfl) p hp
      have hpasses : Passes flags (pageFlags s.links p) := by
        by_cases hlooks : Looks cfg start len flags p
        · exact hiff.mp rfl p hlooks
        · exact hrest hlooks
      exact ⟨grants_iff.mpr ⟨hpasses,hexec⟩,
        fun hwrite => (hopens rfl hwrite p).mpr (hwritten hwrite)⟩
  · refine iff_of_true (fun _ next' hnext => ?_) fun _ hle => absurd hle hfit
    unfold pageCheckRange at hnext
    rw [if_neg hpos,if_pos ((abi_lt_iff hstart hlen hpos).mpr (Nat.lt_of_not_le hfit))] at hnext
    cases hnext

def onePage : List (Action 1) := [.mmap (anonymousPage 0x1000 3) willing]

theorem onePage_flags : (run (step smallConfig) (initial 1) onePage).map (fun s =>
    (pageFlags s.links 1,pageFlags s.links 2)) = some (0x1b,0) := by
  decide +kernel

theorem checksRange_iff_onePage : ∃ s, run (step smallConfig) (initial 1) onePage = some s ∧
    ChecksRange smallConfig s 0x1000 0x800 3 := by
  obtain ⟨s,hrun,hflags⟩ := Option.map_eq_some_iff.mp onePage_flags
  obtain ⟨hone,-⟩ := Prod.mk.inj hflags
  have hchecked : s.pageCheckRange smallConfig 0x1000 0x800 3 = some (s,true) := by
    change checkPages smallConfig 3 1 1 s = _
    unfold checkPages
    rw [hone]
    rfl
  refine ⟨s,hrun,(checksRange_iff smallConfig s 0x1000 0x800 3 (by decide) (by decide) (by decide)
    (by rw [hchecked]; rfl)).mpr fun _ _ _ p hp => ?_⟩
  have hp : p = 1 := by
    have hlow : 1 ≤ p := hp.1
    have hhi : p*4096 < 0x1800 := hp.2
    omega
  rw [hp,hone]
  exact ⟨by decide,fun _ => by unfold Passes; decide,fun _ => .inl (by decide)⟩

/-- The page behind the mapped one is not looked at. -/
theorem write_check_stops_early : ∃ s, run (step smallConfig) (initial 1) onePage = some s ∧
    s.pageCheckRange smallConfig 0x1000 0x2000 pageWrite = some (s, true) ∧
    pageFlags s.links 2 = 0 ∧ ¬ ChecksRange smallConfig s 0x1000 0x2000 pageWrite := by
  obtain ⟨s,hrun,hflags⟩ := Option.map_eq_some_iff.mp onePage_flags
  obtain ⟨hone,htwo⟩ := Prod.mk.inj hflags
  have hchecked : s.pageCheckRange smallConfig 0x1000 0x2000 pageWrite = some (s,true) := by
    change checkPages smallConfig 2 2 1 s = _
    unfold checkPages
    rw [hone]
    rfl
  refine ⟨s,hrun,hchecked,htwo,fun hchecks => ?_⟩
  have hgrow := (hchecks (by decide) s hchecked 2 (by unfold InPages; decide)).1
  rw [htwo] at hgrow
  exact hgrow.1 rfl

end UserPages

end Hqemu.Exec
