import Hqemu.Exec.AddressSpace

/-! What the mapping calls do to the flags of the pages. -/
namespace Hqemu.Exec

open Option

def MayWrite (flags : Nat) : Prop :=
  flags &&& pageWrite ≠ 0 ∨ flags &&& pageWriteOrg ≠ 0

instance (flags : Nat) : Decidable (MayWrite flags) :=
  inferInstanceAs (Decidable (_ ∨ _))

theorem mayWrite_storedFlags (flags : Nat) :
    MayWrite (storedFlags (flags ||| pageValid)) ↔ MayWrite flags := by
  have hval : ∀ mask, pageValid &&& mask = 0 → (flags ||| pageValid) &&& mask = flags &&& mask := by
    intro mask hmask
    rw [Nat.and_or_distrib_right,hmask,Nat.or_zero]
  unfold MayWrite storedFlags
  rw [hval pageWrite rfl]
  by_cases hwrite : flags &&& pageWrite = 0
  · rw [if_pos hwrite,hval pageWrite rfl,hval pageWriteOrg rfl]
  rw [if_neg hwrite]
  apply iff_of_true
  · left
    rw [Nat.and_or_distrib_right,hval pageWrite rfl]
    exact fun hz => hwrite (Nat.or_eq_zero_iff.mp hz).1
  · exact .inl hwrite

namespace AddressSpace

variable {cfg : Config} {host : Kernel} {a b : AddressSpace} {start len prot : Nat}

theorem inRange_empty (halign : start%cfg.targetPageSize = 0) (p : Nat) :
    inRange cfg start (start+0) p = false := by
  have hstart : start/cfg.targetPageSize*cfg.targetPageSize = start :=
    Nat.div_mul_cancel (Nat.dvd_of_mod_eq_zero halign)
  rw [Bool.eq_false_iff,Ne,inRange,Bool.and_eq_true,decide_eq_true_eq,decide_eq_true_eq]
  rintro ⟨hlow,hhi⟩
  have := Nat.mul_le_mul_right cfg.targetPageSize hlow
  omega

theorem targetMprotect_flags {done : Bool}
    (h : targetMprotect cfg host a start len prot = some (b,done)) :
    if done then SetsRange cfg a b start (start + targetPageAlign cfg len)
      ((prot &&& pageBits) ||| pageValid)
    else b.flags = a.flags := by
  unfold targetMprotect at h
  dsimp only at h
  split at h
  · cases h
    rfl
  · rename_i hlegal
    rw [not_or,not_not] at hlegal
    split at h
    · rename_i hz
      cases h
      rw [if_pos rfl,hz]
      intro p
      rw [inRange_empty hlegal.1]
      rfl
    · exact (perform_some h).2

structure Maps (cfg : Config) (a b : AddressSpace) (start stop prot : Nat) : Prop where
  inside : ∀ p, inRange cfg start stop p = true →
    (b.flags p &&& pageWrite ≠ 0 ↔ prot &&& pageWrite ≠ 0) ∧ (MayWrite (b.flags p) → MayWrite prot)
  outside : ∀ p, inRange cfg start stop p = false → b.flags p = a.flags p

theorem SetsRange.maps {stop : Nat} (h : SetsRange cfg a b start stop (prot ||| pageValid)) :
    Maps cfg a b start stop prot := by
  refine ⟨fun p hp => ?_,fun p hp => ?_⟩
  · rw [h p,if_pos hp]
    refine ⟨?_,(mayWrite_storedFlags prot).mp⟩
    rw [UserPages.storedFlags_write,Nat.and_or_distrib_right]
    exact iff_of_eq (congrArg (· ≠ 0) (Nat.or_zero _))
  · rw [h p,if_neg (Bool.eq_false_iff.mp hp)]

def Reads (cfg : Config) (request : MmapRequest) : Prop :=
  request.anonymous = false ∧
    request.offset%cfg.hostPageSize ≠ request.start%cfg.hostPageSize

instance (cfg : Config) (request : MmapRequest) : Decidable (Reads cfg request) :=
  inferInstanceAs (Decidable (_ ∧ _))

structure Admitted (cfg : Config) (request : MmapRequest) (len : Nat) : Prop where
  offset : request.offset%cfg.targetPageSize = 0
  nonempty : targetPageAlign cfg request.len ≠ 0
  cut : mmapLen cfg request = some len
  start : request.start%cfg.targetPageSize = 0
  fits : ¬ tooFar cfg request.start len
  legal : Reads cfg request → ¬ (request.shared = true ∧ request.prot &&& pageWrite ≠ 0)

/-- A mapping that fails leaves the flags, but on pages it was to read the file into. -/
def FailsOpen (cfg : Config) (request : MmapRequest) (a b : AddressSpace) : Prop :=
  ∀ p, b.flags p = a.flags p ∨ ∃ len, Admitted cfg request len ∧ request.fixed = true ∧
    Reads cfg request ∧
      inRange cfg request.start (request.start + targetPageAlign cfg len) p = true

theorem failsOpen_of_same {request : MmapRequest} (h : b.flags = a.flags) :
    FailsOpen cfg request a b := fun p => .inl (congrFun h p)

variable {result : Option Nat}

theorem mmapFixed_flags {shared : Bool} {file : Nat → Option FileMap}
    (h : mmapFixed cfg host a start len prot shared file = some (b,result)) :
    (result = none ∧ b.flags = a.flags) ∨
      result = some start ∧ SetsRange cfg a b start (start+len) (prot ||| pageValid) := by
  obtain ⟨⟨b',done⟩,hperform,hb⟩ := map_eq_some_iff.mp h
  cases hb
  have hsets := (perform_some hperform).2
  cases done with
  | false => exact .inl ⟨rfl,hsets⟩
  | true => exact .inr ⟨rfl,hsets⟩

theorem readFile_flags {file : FileMap}
    (h : readFile cfg host a start len prot file = some (b,result)) :
    (result = none ∧ b.flags = a.flags) ∨
      result = some start ∧ (prot &&& pageWrite = 0 ∧ SetsRange cfg a b start
          (start + targetPageAlign cfg len) ((prot &&& pageBits) ||| pageValid) ∨
        prot &&& pageWrite ≠ 0 ∧ b.flags = a.flags) := by
  unfold readFile at h
  split at h
  · cases h
    exact .inl ⟨rfl,rfl⟩
  · split at h
    · rename_i hwrite
      obtain ⟨⟨b',done⟩,hprotect,hb⟩ := map_eq_some_iff.mp h
      cases hb
      have hsets := targetMprotect_flags hprotect
      cases done with
      | false => exact .inl ⟨rfl,hsets⟩
      | true => exact .inr ⟨rfl,.inl ⟨hwrite,hsets⟩⟩
    · rename_i hwrite
      cases h
      exact .inr ⟨rfl,.inr ⟨hwrite,rfl⟩⟩

theorem mmapAnonymous_flags (halign : start%cfg.targetPageSize = 0)
    (h : mmapAnonymous cfg host a start len (prot ||| pageWrite) = some (b,result)) :
    (result = none ∧ b.flags = a.flags) ∨ result = some start ∧
      SetsRange cfg a b start (start + targetPageAlign cfg len)
        ((prot ||| pageWrite) ||| pageValid) := by
  unfold mmapAnonymous at h
  dsimp only at h
  split at h
  · rename_i hz
    cases h
    rw [hz]
    refine .inr ⟨rfl,fun p => ?_⟩
    rw [inRange_empty halign]
    rfl
  · split at h
    · cases h
      exact .inl ⟨rfl,rfl⟩
    · exact mmapFixed_flags h

theorem and_pageBits_write (prot : Nat) :
    (prot &&& pageBits) &&& pageWrite = prot &&& pageWrite := by
  rw [Nat.and_assoc]
  rfl

theorem mayWrite_and_pageBits (h : MayWrite (prot &&& pageBits)) : MayWrite prot := by
  refine .inl fun hz => ?_
  have horigin : (prot &&& pageBits) &&& pageWriteOrg = 0 := by
    rw [Nat.and_assoc]
    exact Nat.and_zero prot
  rw [MayWrite,and_pageBits_write,horigin] at h
  exact h.elim (· hz) (· rfl)

theorem mmapRead_flags {file : FileMap} (halign : start%cfg.targetPageSize = 0)
    (h : mmapRead cfg host a start len prot file = some (b,result)) :
    (result = none ∧ ∀ p, b.flags p = a.flags p ∨
        inRange cfg start (start + targetPageAlign cfg len) p = true) ∨
      result = some start ∧ Maps cfg a b start (start + targetPageAlign cfg len) prot := by
  obtain ⟨⟨mid,mapped⟩,hmid,h⟩ := bind_eq_some_iff.mp h
  have hwrite : ((prot ||| pageWrite) ||| pageValid) &&& pageWrite ≠ 0 := by
    rw [Nat.and_or_distrib_right,Nat.and_or_distrib_right]
    exact fun hz => absurd (Nat.or_eq_zero_iff.mp (Nat.or_eq_zero_iff.mp hz).1).2 (by decide)
  dsimp only at h
  rcases mmapAnonymous_flags halign hmid with ⟨rfl,hflags⟩ | ⟨rfl,hsets⟩
  · cases h
    exact .inl ⟨rfl,fun p => .inl (congrFun hflags p)⟩
  · rw [if_pos (show (some start).isSome = true from rfl)] at h
    rcases readFile_flags h with ⟨rfl,hflags⟩ | ⟨rfl,hlast⟩
    · refine .inl ⟨rfl,fun p => ?_⟩
      rw [hflags,hsets p]
      by_cases hp : inRange cfg start (start + targetPageAlign cfg len) p = true
      · exact .inr hp
      · exact .inl (if_neg hp)
    · refine .inr ⟨rfl,?_⟩
      rcases hlast with ⟨-,hlast⟩ | ⟨hprot,hflags⟩
      · have hmaps := hlast.maps
        refine ⟨fun p hp => ?_,fun p hp => ?_⟩
        · obtain ⟨hiff,hmay⟩ := hmaps.inside p hp
          rw [and_pageBits_write] at hiff
          exact ⟨hiff,fun hp => mayWrite_and_pageBits (hmay hp)⟩
        · rw [hmaps.outside p hp,hsets _,if_neg (Bool.eq_false_iff.mp hp)]
      · refine ⟨fun p hp => ⟨iff_of_true ?_ hprot,fun _ => .inl hprot⟩,fun p hp => ?_⟩
        · rw [hflags,hsets _,if_pos hp]
          exact (UserPages.storedFlags_write _).mpr hwrite
        · rw [hflags,hsets _,if_neg (Bool.eq_false_iff.mp hp)]

/-- The length of the range whose flags a mapping of `len` bytes sets: where the file is read
in, whole target pages. -/
def flaggedLen (cfg : Config) (request : MmapRequest) (len : Nat) : Nat :=
  if request.fixed = true ∧ Reads cfg request then targetPageAlign cfg len else len

theorem targetMmap_flags {request : MmapRequest}
    (h : targetMmap cfg host a request = some (b,result)) :
    (result = none ∧ FailsOpen cfg request a b) ∨
      (targetPageAlign cfg request.len = 0 ∧ b = a) ∨
      targetPageAlign cfg request.len ≠ 0 ∧ ∃ addr len, result = some addr ∧
        mmapLen cfg request = some len ∧
        Maps cfg a b addr (addr + flaggedLen cfg request len) request.prot := by
  unfold targetMmap at h
  dsimp only at h
  split at h
  · cases h
    exact .inl ⟨rfl,failsOpen_of_same rfl⟩
  rename_i hoffset
  split at h
  · rename_i hz
    cases h
    exact .inr (.inl ⟨hz,rfl⟩)
  rename_i hnonzero
  split at h
  · cases h
    exact .inl ⟨rfl,failsOpen_of_same rfl⟩
  rename_i len hlen
  split at h
  · rename_i hfixed
    have hflagged : flaggedLen cfg request len = len := by
      rw [flaggedLen,if_neg (by simp [hfixed])]
    split at h
    · cases h
      exact .inl ⟨rfl,failsOpen_of_same rfl⟩
    · obtain ⟨⟨b',done⟩,hperform,hb⟩ := map_eq_some_iff.mp h
      cases hb
      have hsets := (perform_some hperform).2
      cases done with
      | false => exact .inl ⟨rfl,failsOpen_of_same hsets⟩
      | true =>
        refine .inr (.inr ⟨hnonzero,_,len,rfl,hlen,?_⟩)
        rw [hflagged]
        exact hsets.maps
  rename_i hfixed
  split at h
  · cases h
    exact .inl ⟨rfl,failsOpen_of_same rfl⟩
  rename_i hlegal
  rw [not_or,not_not] at hlegal
  split at h
  · rename_i hread
    split at h
    · cases h
      exact .inl ⟨rfl,failsOpen_of_same rfl⟩
    · rename_i hshared
      have hadmitted : Admitted cfg request len :=
        ⟨not_not.mp hoffset,hnonzero,hlen,hlegal.1,hlegal.2,fun _ => hshared⟩
      rcases mmapRead_flags hlegal.1 h with ⟨rfl,hfail⟩ | ⟨rfl,hmaps⟩
      · refine .inl ⟨rfl,fun p => (hfail p).imp_right fun hp => ⟨len,hadmitted,?_,hread,hp⟩⟩
        simpa using hfixed
      · refine .inr (.inr ⟨hnonzero,_,len,rfl,hlen,?_⟩)
        rw [flaggedLen,if_pos ⟨by simpa using hfixed,hread⟩]
        exact hmaps
  · rename_i hread
    rcases mmapFixed_flags h with ⟨rfl,hflags⟩ | ⟨rfl,hsets⟩
    · exact .inl ⟨rfl,failsOpen_of_same hflags⟩
    refine .inr (.inr ⟨hnonzero,_,len,rfl,hlen,?_⟩)
    rw [flaggedLen,if_neg (fun hand => hread hand.2)]
    exact hsets.maps

theorem targetMunmap_flags {done : Bool} (h : targetMunmap cfg host a start len = some (b,done))
    (p : Nat) : b.flags p = a.flags p ∨ b.flags p = 0 := by
  unfold targetMunmap at h
  dsimp only at h
  split at h
  · cases h
    exact .inl rfl
  · obtain ⟨⟨b',done'⟩,hperform,hb⟩ := map_eq_some_iff.mp h
    have hsets := (perform_some hperform).2
    cases done' with
    | false =>
      cases hb
      exact .inl (congrFun hsets p)
    | true =>
      cases hb
      by_cases hp : inRange cfg start (start + targetPageAlign cfg len) p = true
      · exact .inr ((hsets p).trans (if_pos hp))
      · exact .inl ((hsets p).trans (if_neg hp))

theorem targetMremap_flags {old oldSize newSize : Nat} {mode : MremapMode}
    (h : targetMremap cfg host a old oldSize newSize mode = some (b,result)) :
    (result = none ∧ b.flags = a.flags) ∨ ∃ new, result = some new ∧ ∀ p,
      if inRange cfg new (new+newSize) p then
        b.flags p = storedFlags (a.flags (pageIndex cfg old) ||| pageValid)
      else b.flags p = a.flags p ∨ b.flags p = 0 := by
  unfold targetMremap at h
  split at h
  · cases h
    exact .inl ⟨rfl,rfl⟩
  · rename_i m new _
    simp only [moveFlags,bind_eq_some_iff,map_eq_some_iff] at h
    obtain ⟨mid,hmid,b',hb',hb⟩ := h
    cases hb
    obtain ⟨hold,-⟩ := setsRange_pageSetFlags hmid
    obtain ⟨hnew,-⟩ := setsRange_pageSetFlags hb'
    refine .inr ⟨new,rfl,fun p => ?_⟩
    split
    · rename_i hp
      rw [hnew,if_pos hp]
      rfl
    · rename_i hp
      rw [hnew,if_neg hp,hold]
      split
      · exact .inr rfl
      · exact .inl rfl

end AddressSpace

end Hqemu.Exec
