import Hqemu.Block.Multiwrite
import Hqemu.Lib.Run
import Mathlib.Data.Finset.Card
import Mathlib.Data.Int.Basic

/-! The callbacks of `bdrv_aio_multiwrite`. The writes that are submitted complete in any
order, and also while others are submitted. -/
namespace Hqemu.Block

open Finset Lib.Run

def eio : Int := 5

structure MultiwriteCB where
  error : Int
  numRequests : Int
  numCallbacks : Nat
deriving DecidableEq, Repr

inductive Phase where
  | submit (i : Nat)
  | inside (i : Nat)
  | returned (result : Int)
deriving DecidableEq, Repr

/-- `calls` has the callbacks of the original requests with their results. `flight` has the
unfinished writes, and `failed` whether one failed or was refused; no function reads these. -/
structure Multiwrite where
  mcb : Option MultiwriteCB
  phase : Phase
  calls : List (Nat × Int)
  errors : List Int
  crashed : Bool
  flight : Finset Nat
  failed : Bool

/-- A write is refused only before its callback, and one that is not refused has one callback. -/
inductive MultiwriteEvent where
  | submit
  | accept
  | refuse
  | complete (i : Nat) (ret : Int)
deriving DecidableEq, Repr

namespace Multiwrite

def userCb (mcb : MultiwriteCB) : List (Nat × Int) :=
  (List.range mcb.numCallbacks).map fun i => (i,mcb.error)

def cb (s : Multiwrite) (ret : Int) : Multiwrite :=
  match s.mcb with
  | none => { s with crashed := true }
  | some mcb =>
    let mcb := { mcb with
      error := if ret < 0 ∧ mcb.error = 0 then ret else mcb.error
      numRequests := mcb.numRequests-1 }
    if mcb.numRequests = 0 then { s with mcb := none, calls := s.calls ++ userCb mcb }
    else { s with mcb := some mcb }

def finish (s : Multiwrite) : Multiwrite :=
  { s.cb 0 with phase := .returned 0 }

def step (total : Nat) (s : Multiwrite) : MultiwriteEvent → Option Multiwrite
  | .submit =>
    match s.phase, s.mcb with
    | .submit i, some mcb =>
      some { s with
        mcb := some { mcb with numRequests := mcb.numRequests+1 }
        phase := .inside i
        flight := insert i s.flight }
    | .submit _, none => some { s with crashed := true }
    | _, _ => none
  | .accept =>
    match s.phase with
    | .inside i =>
      if i + 1 < total then some { s with phase := .submit (i+1) } else some s.finish
    | _ => none
  | .refuse =>
    match s.phase with
    | .inside i =>
      if i ∈ s.flight then
        let s := { s with flight := s.flight.erase i, failed := true }
        if i = 0 then
          some { s with
            mcb := none
            phase := .returned (-1)
            errors := s.errors.map fun _ => -eio }
        else some (s.cb (-eio)).finish
      else none
    | _ => none
  | .complete i ret =>
    if i ∈ s.flight then
      some ({ s with flight := s.flight.erase i, failed := s.failed || ret < 0 }.cb ret)
    else none

def initial (numCallbacks : Nat) : Multiwrite where
  mcb := some ⟨0,1,numCallbacks⟩
  phase := .submit 0
  calls := []
  errors := List.replicate numCallbacks 0
  crashed := false
  flight := ∅
  failed := false

def Called (numCallbacks : Nat) (s : Multiwrite) (result : Int) : Prop :=
  s.calls = (List.range numCallbacks).map fun i => (i,result)

structure Failed (numCallbacks : Nat) (s : Multiwrite) : Prop where
  phase : s.phase = .returned (-1)
  calls : s.calls = []
  flight : s.flight = ∅
  errors : s.errors = List.replicate numCallbacks (-eio)

/-- The result of a batch is known to every request. -/
def Settled (numCallbacks : Nat) (s : Multiwrite) : Prop :=
  s.Failed numCallbacks ∨
    s.phase = .returned 0 ∧ ∃ result, s.Called numCallbacks result ∧ (s.failed = true → result < 0)

/-- The callbacks are made when every write that was submitted has finished, and not before;
nothing is left to happen only then. -/
structure Reported (total numCallbacks : Nat) (s : Multiwrite) : Prop where
  safe : s.crashed = false
  pending : (∀ result, s.phase ≠ .returned result) ∨ s.flight ≠ ∅ → s.calls = []
  settled : ∀ result, s.phase = .returned result → s.flight = ∅ → s.Settled numCallbacks
  reached : (∀ event, s.step total event = none) → s.Settled numCallbacks

variable {numCallbacks total : Nat} {s next : Multiwrite}

structure Counts (numCallbacks count : Nat) (ret : Int) (s : Multiwrite) (held : MultiwriteCB) :
    Prop where
  mcb : s.mcb = some held
  number : held.numRequests = count
  callbacks : held.numCallbacks = numCallbacks
  negative : held.error ≤ 0
  error : s.failed = true → held.error < 0 ∨ ret < 0
  calls : s.calls = []
  errors : s.errors.length = numCallbacks
  safe : s.crashed = false

structure Done (numCallbacks : Nat) (s : Multiwrite) : Prop where
  called : ∃ result, s.Called numCallbacks result ∧ (s.failed = true → result < 0)
  safe : s.crashed = false

@[simp] theorem cb_flight (s : Multiwrite) (ret : Int) : (s.cb ret).flight = s.flight := by
  unfold cb
  dsimp only
  repeat' split
  all_goals rfl

@[simp] theorem cb_phase (s : Multiwrite) (ret : Int) : (s.cb ret).phase = s.phase := by
  unfold cb
  dsimp only
  repeat' split
  all_goals rfl

variable {count : Nat} {ret : Int} {held : MultiwriteCB}

theorem Counts.cb_succ (h : s.Counts numCallbacks (count+2) ret held) :
    ∃ held', (s.cb ret).Counts numCallbacks (count+1) 0 held' := by
  have hnumber := h.number
  have hmore : ¬ held.numRequests-1 = 0 := by omega
  unfold Multiwrite.cb
  rw [h.mcb]
  dsimp only
  rw [if_neg hmore]
  refine ⟨_,rfl,?_,h.callbacks,?_,fun hfail => .inl ?_,h.calls,h.errors,h.safe⟩
  · dsimp only
    omega
  · have := h.negative
    dsimp only
    split <;> omega
  · have := h.negative
    have := h.error hfail
    dsimp only
    split <;> omega

theorem Counts.cb_one (h : s.Counts numCallbacks 1 ret held) : (s.cb ret).Done numCallbacks := by
  have hnumber := h.number
  have hlast : held.numRequests-1 = 0 := by omega
  unfold Multiwrite.cb
  rw [h.mcb]
  dsimp only
  rw [if_pos hlast]
  refine ⟨⟨if ret < 0 ∧ held.error = 0 then ret else held.error,?_,fun hfail => ?_⟩,h.safe⟩
  · unfold Called userCb
    rw [h.calls,h.callbacks,List.nil_append]
  · have := h.negative
    have := h.error hfail
    split <;> omega

def Inv (numCallbacks : Nat) (s : Multiwrite) : Prop :=
  match s.phase with
  | .submit i => (∃ held, s.Counts numCallbacks (s.flight.card+1) 0 held) ∧
      ∀ k ∈ s.flight, k < i
  | .inside i => (∃ held, s.Counts numCallbacks (s.flight.card+1) 0 held) ∧
      ∀ k ∈ s.flight, k ≤ i
  | .returned result =>
    s.flight ≠ ∅ ∧ result = 0 ∧ (∃ held, s.Counts numCallbacks s.flight.card 0 held) ∨
      s.flight = ∅ ∧ result = 0 ∧ s.Done numCallbacks ∨
      s.Failed numCallbacks ∧ s.crashed = false

theorem inv_initial (numCallbacks : Nat) : (initial numCallbacks).Inv numCallbacks := by
  refine ⟨⟨_,rfl,rfl,rfl,le_refl 0,fun h => (nomatch h),rfl,?_,rfl⟩,fun k hk => ?_⟩
  · exact List.length_replicate
  · cases hk

theorem inv_finish (h : s.Counts numCallbacks (s.flight.card+1) 0 held) :
    s.finish.Inv numCallbacks := by
  unfold Inv finish
  rw [cb_flight]
  by_cases hflight : s.flight = ∅
  · refine .inr (.inl ⟨hflight,rfl,?_⟩)
    rw [hflight,card_empty] at h
    exact ⟨h.cb_one.called,h.cb_one.safe⟩
  · obtain ⟨count,hcount⟩ := Nat.exists_eq_succ_of_ne_zero (card_ne_zero.mpr
      (nonempty_iff_ne_empty.mpr hflight))
    refine .inl ⟨hflight,rfl,?_⟩
    rw [hcount] at h ⊢
    obtain ⟨held',h'⟩ := h.cb_succ
    exact ⟨held',h'.mcb,h'.number,h'.callbacks,h'.negative,h'.error,h'.calls,h'.errors,h'.safe⟩

theorem Inv.reported (h : s.Inv numCallbacks) : s.Reported total numCallbacks := by
  unfold Inv at h
  cases hphase : s.phase with
  | submit i =>
    rw [hphase] at h
    obtain ⟨⟨held,hcounts⟩,-⟩ := h
    refine ⟨hcounts.safe,fun _ => hcounts.calls,fun _ hret => ?_,fun hstuck => ?_⟩
    · rw [hphase] at hret
      cases hret
    · have hsubmit := hstuck .submit
      unfold step at hsubmit
      rw [hphase,hcounts.mcb] at hsubmit
      cases hsubmit
  | inside i =>
    rw [hphase] at h
    obtain ⟨⟨held,hcounts⟩,-⟩ := h
    refine ⟨hcounts.safe,fun _ => hcounts.calls,fun _ hret => ?_,fun hstuck => ?_⟩
    · rw [hphase] at hret
      cases hret
    · have haccept := hstuck .accept
      unfold step at haccept
      rw [hphase] at haccept
      dsimp only at haccept
      split at haccept <;> cases haccept
  | returned result =>
    rw [hphase] at h
    rcases h with ⟨hflight,-,held,hcounts⟩ | ⟨hflight,rfl,hdone⟩ | ⟨hfail,hsafe⟩
    · refine ⟨hcounts.safe,fun _ => hcounts.calls,fun _ _ hnone => absurd hnone hflight,
          fun hstuck => ?_⟩
      obtain ⟨i,hi⟩ := nonempty_iff_ne_empty.mpr hflight
      have hcomplete := hstuck (.complete i 0)
      unfold step at hcomplete
      dsimp only at hcomplete
      rw [if_pos hi] at hcomplete
      cases hcomplete
    · have hset : s.Settled numCallbacks := Or.inr ⟨hphase,hdone.called⟩
      refine ⟨hdone.safe,?_,fun _ _ _ => hset,fun _ => hset⟩
      rintro (hnot | hne)
      · exact absurd hphase (hnot 0)
      · exact absurd hflight hne
    · exact ⟨hsafe,fun _ => hfail.calls,fun _ _ _ => .inl hfail,fun _ => .inl hfail⟩

theorem Counts.leave (i : Nat) (ret : Int) (h : s.Counts numCallbacks count 0 held) :
    Counts numCallbacks count ret
      { s with flight := s.flight.erase i, failed := s.failed || ret < 0 } held := by
  refine ⟨h.mcb,h.number,h.callbacks,h.negative,fun hfail => ?_,h.calls,h.errors,h.safe⟩
  rw [Bool.or_eq_true,decide_eq_true_eq] at hfail
  exact hfail.imp_left fun hold => (h.error hold).resolve_right (by decide)

theorem Counts.congr {phase : Phase} (h : s.Counts numCallbacks count ret held) :
    Counts numCallbacks count ret { s with phase := phase } held :=
  ⟨h.mcb,h.number,h.callbacks,h.negative,h.error,h.calls,h.errors,h.safe⟩

theorem Inv.complete {i : Nat} (h : s.Inv numCallbacks) (hi : i ∈ s.flight) (ret : Int) :
    Inv numCallbacks
      ({ s with flight := s.flight.erase i, failed := s.failed || ret < 0 }.cb ret) := by
  have hcard := card_erase_add_one hi
  have hsub : ∀ k, k ∈ s.flight.erase i → k ∈ s.flight := fun _ => Finset.mem_of_mem_erase
  obtain ⟨left,hleft⟩ : ∃ left : Multiwrite,
      left = { s with flight := s.flight.erase i, failed := s.failed || ret < 0 } := ⟨_,rfl⟩
  have hleave : ∀ count held, s.Counts numCallbacks count 0 held →
      left.Counts numCallbacks count ret held := fun count held hc => hleft ▸ hc.leave i ret
  have hphase' : left.phase = s.phase := by rw [hleft]
  have hflight' : left.flight = s.flight.erase i := by rw [hleft]
  rw [← hleft]
  unfold Inv at h ⊢
  rw [cb_phase,cb_flight,hphase',hflight']
  cases hphase : s.phase with
  | submit j =>
    rw [hphase] at h
    obtain ⟨⟨held,hcounts⟩,hlt⟩ := h
    rw [← hcard] at hcounts
    exact ⟨(hleave _ _ hcounts).cb_succ,fun k hk => hlt k (hsub k hk)⟩
  | inside j =>
    rw [hphase] at h
    obtain ⟨⟨held,hcounts⟩,hle⟩ := h
    rw [← hcard] at hcounts
    exact ⟨(hleave _ _ hcounts).cb_succ,fun k hk => hle k (hsub k hk)⟩
  | returned result =>
    rw [hphase] at h
    rcases h with ⟨-,rfl,held,hcounts⟩ | ⟨hflight,-⟩ | ⟨hfail,-⟩
    · by_cases hlast : s.flight.erase i = ∅
      · rw [← hcard,hlast,card_empty] at hcounts
        exact .inr (.inl ⟨hlast,rfl,(hleave _ _ hcounts).cb_one⟩)
      · obtain ⟨count,hcount⟩ := Nat.exists_eq_succ_of_ne_zero (card_ne_zero.mpr
          (nonempty_iff_ne_empty.mpr hlast))
        rw [← hcard,hcount] at hcounts
        rw [hcount]
        exact .inl ⟨hlast,rfl,(hleave _ _ hcounts).cb_succ⟩
    · rw [hflight] at hi
      cases hi
    · rw [hfail.flight] at hi
      cases hi

theorem Inv.refuse {i : Nat} (hcounts : s.Counts numCallbacks (s.flight.card+1) 0 held)
    (hi : i ∈ s.flight) :
    Inv numCallbacks ({ s with flight := s.flight.erase i, failed := true }.cb (-eio)).finish := by
  have hcard := card_erase_add_one hi
  rw [← hcard] at hcounts
  have hleave := hcounts.leave i (-eio)
  rw [show (s.failed || decide (-eio < 0)) = true from Bool.or_true _] at hleave
  obtain ⟨held',hcb⟩ := hleave.cb_succ
  refine inv_finish (show Counts _ _ _ _ held' from ?_)
  rwa [cb_flight]

theorem Inv.step {event : MultiwriteEvent} (h : s.Inv numCallbacks)
    (hs : s.step total event = some next) : next.Inv numCallbacks := by
  cases event with
  | complete i ret =>
    unfold Multiwrite.step at hs
    dsimp only at hs
    split at hs
    · rename_i hi
      cases hs
      exact h.complete hi ret
    · cases hs
  | submit =>
    unfold Multiwrite.step at hs
    dsimp only at hs
    split at hs
    · rename_i i held hphase hmcb
      cases hs
      unfold Inv at h ⊢
      rw [hphase] at h
      obtain ⟨⟨held',hcounts⟩,hlt⟩ := h
      have hheld := Option.some.inj (hmcb.symm.trans hcounts.mcb)
      subst hheld
      have hnew : i ∉ s.flight := fun hi => absurd (hlt i hi) (Nat.lt_irrefl i)
      have hnumber := hcounts.number
      refine ⟨⟨_,rfl,?_,hcounts.callbacks,hcounts.negative,hcounts.error,hcounts.calls,
        hcounts.errors,hcounts.safe⟩,fun k hk => ?_⟩
      · rw [card_insert_of_notMem hnew]
        dsimp only
        omega
      · rcases mem_insert.mp hk with rfl | hk
        · exact le_refl _
        · exact (hlt k hk).le
    · rename_i i hphase hmcb
      unfold Inv at h
      rw [hphase] at h
      obtain ⟨⟨held,hcounts⟩,-⟩ := h
      rw [hcounts.mcb] at hmcb
      cases hmcb
    · cases hs
  | accept =>
    unfold Multiwrite.step at hs
    dsimp only at hs
    split at hs
    · rename_i i hphase
      unfold Inv at h
      rw [hphase] at h
      obtain ⟨⟨held,hcounts⟩,hle⟩ := h
      split at hs
      · cases hs
        exact ⟨⟨held,hcounts.congr⟩,fun k hk => Nat.lt_succ_of_le (hle k hk)⟩
      · cases hs
        exact inv_finish hcounts
    · cases hs
  | refuse =>
    unfold Multiwrite.step at hs
    dsimp only at hs
    split at hs
    · rename_i i hphase
      unfold Inv at h
      rw [hphase] at h
      obtain ⟨⟨held,hcounts⟩,hle⟩ := h
      split at hs
      · rename_i hi
        split at hs
        · rename_i hfirst
          cases hs
          refine .inr (.inr ⟨⟨rfl,hcounts.calls,?_,?_⟩,hcounts.safe⟩)
          · ext k
            simp only [Finset.mem_erase,notMem_empty,iff_false,not_and]
            intro hne hk
            have := hle k hk
            omega
          · dsimp only
            rw [List.map_const',hcounts.errors]
        · cases hs
          exact Inv.refuse hcounts hi
      · cases hs
    · cases hs

end Multiwrite

end Hqemu.Block
