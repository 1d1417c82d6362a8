import Hqemu.Lib.Iovec
import Mathlib.Data.List.Forall2
import Mathlib.Data.List.Pairwise

/-! `bdrv_aio_multiwrite` of `block.c`: a batch of writes, in which neighbours are merged. -/
namespace Hqemu.Block

open Function List Lib

structure WriteRequest where
  sector : Nat
  nbSectors : Nat
  qiov : List (List UInt8)
  size : qiov.flatten.length = nbSectors*512

namespace WriteRequest

def stop (r : WriteRequest) : Nat := r.sector+r.nbSectors

def Covers (r : WriteRequest) (x : Nat) : Prop := r.sector ≤ x ∧ x < r.stop

instance (r : WriteRequest) (x : Nat) : Decidable (r.Covers x) :=
  inferInstanceAs (Decidable (_ ∧ _))

def dataAt (r : WriteRequest) (x : Nat) : List UInt8 :=
  (r.qiov.flatten.drop ((x-r.sector) * 512)).take 512

end WriteRequest

def iovMax : Nat := 1024

/-- `bdrv_merge_requests`: whether the gap between two requests, given by their sectors and
numbers of sectors, may be filled with zeros. -/
abbrev MergeRequests : Type := Nat → Nat → Nat → Nat → Bool

/-- The vector of two requests: the first is cut where the second begins, and zeros stand for
what is between them. -/
def mergedQiov (old new : WriteRequest) : List (List UInt8) :=
  Iovec.upTo ((new.sector-old.sector) * 512) old.qiov 0 ++
    (if old.stop < new.sector then [List.replicate ((new.sector-old.stop) * 512) 0] else []) ++
    Iovec.upTo (new.nbSectors*512) new.qiov 0

theorem flatten_mergedQiov (old new : WriteRequest) :
    (mergedQiov old new).flatten =
      old.qiov.flatten.take ((new.sector-old.sector) * 512) ++
        (List.replicate ((new.sector-old.stop) * 512) 0 ++ new.qiov.flatten) := by
  unfold mergedQiov
  rw [flatten_append,flatten_append,Iovec.flatten_upTo _ (Nat.zero_le _),
    Iovec.flatten_upTo _ (Nat.zero_le _),Nat.sub_zero,Nat.sub_zero,append_assoc,
    take_of_length_le (Nat.le_of_eq new.size)]
  congr 2
  split
  · simp
  rename_i hnone
  rw [Nat.sub_eq_zero_of_le (Nat.le_of_not_lt hnone)]
  rfl

theorem length_front (old new : WriteRequest) (h : old.sector ≤ new.sector) :
    (old.qiov.flatten.take ((new.sector-old.sector) * 512)).length +
      (new.sector-old.stop) * 512 = (new.sector-old.sector) * 512 := by
  rw [length_take,old.size]
  unfold WriteRequest.stop
  omega

def WriteRequest.merge (old new : WriteRequest) : WriteRequest where
  sector := old.sector
  nbSectors := (mergedQiov old new).flatten.length / 512
  qiov := mergedQiov old new
  size := by
    rw [flatten_mergedQiov,List.length_append,List.length_append,List.length_take,
      List.length_replicate,old.size,new.size]
    omega

def merges (driver : MergeRequests) (old new : WriteRequest) : Bool :=
  (new.sector ≤ old.stop || driver old.sector old.nbSectors new.sector new.nbSectors) &&
    old.qiov.length+new.qiov.length+1 ≤ iovMax

def mergeFrom (driver : MergeRequests) : WriteRequest → List WriteRequest → List WriteRequest
  | old, [] => [old]
  | old, new :: rest =>
    if merges driver old new then mergeFrom driver (old.merge new) rest
    else old :: mergeFrom driver new rest

/-- The requests are those of the batch as `qsort` has ordered them. -/
def multiwriteMerge (driver : MergeRequests) : List WriteRequest → List WriteRequest
  | [] => []
  | first :: rest => mergeFrom driver first rest

namespace WriteRequest

variable {old new : WriteRequest} {x : Nat}

def zeros : List UInt8 := List.replicate 512 0

theorem merge_stop (h : old.sector ≤ new.sector) : (old.merge new).stop = new.stop := by
  have hfront := length_front old new h
  unfold merge stop
  dsimp only
  rw [flatten_mergedQiov,length_append,length_append,length_replicate,← Nat.add_assoc,hfront,
      new.size]
  omega

/-- A merged request has the data of the second one from its start on, before that what is left
of the first, and zeros in between. -/
theorem merge_dataAt (h : old.sector ≤ new.sector) (hlow : old.sector ≤ x) :
    (old.merge new).dataAt x =
      if new.sector ≤ x then new.dataAt x else if x < old.stop then old.dataAt x else zeros := by
  have hfront := length_front old new h
  have hold := old.size
  unfold dataAt merge
  dsimp only
  rw [flatten_mergedQiov]
  split
  · rename_i hin
    rw [← append_assoc,drop_append,length_append,length_replicate, hfront,drop_eq_nil_of_le,
        nil_append]
    · congr 2
      omega
    · rw [length_append,length_replicate,hfront]
      omega
  · rename_i hbefore
    split
    · rename_i hin
      rw [drop_append_of_le_length (by omega),take_append_of_le_length (by rw [length_drop]; omega),
        drop_take,take_take,Nat.min_eq_left (by omega)]
    · rename_i hgap
      unfold stop at hgap hfront ⊢
      have hall : old.qiov.flatten.take ((new.sector-old.sector) * 512) = old.qiov.flatten :=
        take_of_length_le (by omega)
      rw [hall,drop_append,drop_eq_nil_of_le (by omega),nil_append,
        drop_append_of_le_length (by rw [length_replicate]; omega),drop_replicate,
        take_append_of_le_length (by rw [length_replicate]; omega),take_replicate,
        Nat.min_eq_left (by omega)]
      rfl

end WriteRequest

def groupsFrom (driver : MergeRequests) :
    WriteRequest → List WriteRequest → List WriteRequest → List (List WriteRequest)
  | _, group, [] => [group]
  | old, group, new :: rest =>
    if merges driver old new then groupsFrom driver (old.merge new) (group ++ [new]) rest
    else group :: groupsFrom driver new [new] rest

def groups (driver : MergeRequests) : List WriteRequest → List (List WriteRequest)
  | [] => []
  | first :: rest => groupsFrom driver first [first] rest

def lastStart (group : List WriteRequest) (x : Nat) : Option WriteRequest :=
  (group.filter (·.sector ≤ x)).getLast?

def HasData (group : List WriteRequest) (x : Nat) : Prop :=
  ∃ r, lastStart group x = some r ∧ r.Covers x

def InGap (group : List WriteRequest) (x : Nat) : Prop :=
  ∃ r, lastStart group x = some r ∧ ¬ r.Covers x ∧ ∃ later ∈ group, x < later.sector

structure Merged (group : List WriteRequest) (m : WriteRequest) : Prop where
  start : ∀ x, m.sector ≤ x ↔ (lastStart group x).isSome = true
  covers : ∀ x, m.Covers x ↔ HasData group x ∨ InGap group x
  data : ∀ x r, lastStart group x = some r → r.Covers x → m.dataAt x = r.dataAt x
  gap : ∀ x, InGap group x → m.dataAt x = WriteRequest.zeros

variable {driver : MergeRequests} {old new : WriteRequest} {group rest : List WriteRequest}
  {x : Nat}

theorem lastStart_append (group : List WriteRequest) (new : WriteRequest) (x : Nat) :
    lastStart (group ++ [new]) x = if new.sector ≤ x then some new else lastStart group x := by
  unfold lastStart
  rw [filter_append]
  by_cases h : new.sector ≤ x
  · rw [if_pos h,filter_cons_of_pos (by simpa using h)]
    simp
  · rw [if_neg h,filter_cons_of_neg (by simpa using h)]
    simp

theorem hasData_append (group : List WriteRequest) (new : WriteRequest) (x : Nat) :
    HasData (group ++ [new]) x ↔ if new.sector ≤ x then new.Covers x else HasData group x := by
  unfold HasData
  rw [lastStart_append]
  split <;> simp

theorem inGap_append (hsorted : ∀ r ∈ group, r.sector ≤ new.sector) (x : Nat) :
    InGap (group ++ [new]) x ↔
      ¬ new.sector ≤ x ∧ ∃ r, lastStart group x = some r ∧ ¬ r.Covers x := by
  unfold InGap
  rw [lastStart_append]
  split
  · rename_i hle
    refine iff_of_false ?_ fun hand => hand.1 hle
    rintro ⟨r,-,-,later,hlater,hlt⟩
    rcases mem_append.mp hlater with hlater | hlater
    · have := hsorted later hlater
      omega
    · rw [mem_singleton.mp hlater] at hlt
      omega
  · rename_i hlt
    constructor
    · rintro ⟨r,hlast,hcover,-⟩
      exact ⟨hlt,r,hlast,hcover⟩
    · rintro ⟨-,r,hlast,hcover⟩
      exact ⟨r,hlast,hcover,new,by simp,by omega⟩

theorem merged_singleton (r : WriteRequest) : Merged [r] r := by
  have hlast : ∀ x, lastStart [r] x = if r.sector ≤ x then some r else none :=
    lastStart_append [] r
  have hgap : ∀ x, ¬ InGap [r] x := by
    intro x hgap
    have hnone : ∀ other ∈ ([] : List WriteRequest), other.sector ≤ r.sector := by simp
    obtain ⟨-,other,hother,-⟩ := (inGap_append hnone x).mp hgap
    cases hother
  refine ⟨fun x => ?_,fun x => ?_,fun x other hother hcover => ?_,fun x h => absurd h (hgap x)⟩
  · rw [hlast]
    split <;> simp_all
  · rw [or_iff_left (hgap x)]
    refine Iff.trans ?_ (hasData_append [] r x).symm
    split
    · rfl
    rename_i hlt
    refine iff_of_false (fun hcover => hlt hcover.1) ?_
    rintro ⟨other,hother,-⟩
    cases hother
  · rw [hlast] at hother
    split at hother
    · cases hother
      rfl
    · cases hother

theorem Merged.merge (h : Merged group old) (hle : old.sector ≤ new.sector)
    (hsorted : ∀ r ∈ group, r.sector ≤ new.sector) : Merged (group ++ [new]) (old.merge new) := by
  have hstop := WriteRequest.merge_stop hle
  have hfront : ∀ x r, ¬ new.sector ≤ x → lastStart group x = some r →
      (old.merge new).dataAt x = if x < old.stop then old.dataAt x else WriteRequest.zeros := by
    intro x r hlt hlast
    have hlow := (h.start x).mpr (by rw [hlast]; rfl)
    rw [WriteRequest.merge_dataAt hle hlow,if_neg hlt]
  have hcovered : ∀ x r, lastStart group x = some r →
      (x < old.stop ↔ HasData group x ∨ InGap group x) := by
    intro x r hlast
    rw [← h.covers x]
    exact (and_iff_right ((h.start x).mpr (by rw [hlast]; rfl))).symm
  refine ⟨fun x => ?_,fun x => ?_,fun x r hlast hcover => ?_,fun x hgap => ?_⟩
  · rw [lastStart_append]
    split
    · exact iff_of_true (Nat.le_trans hle ‹_›) rfl
    · exact h.start x
  · rw [hasData_append,inGap_append hsorted]
    unfold WriteRequest.Covers
    rw [hstop,show (old.merge new).sector = old.sector from rfl]
    split
    · rename_i hin
      rw [or_iff_left fun hand => hand.1 hin]
      exact and_congr_left fun _ => iff_of_true (Nat.le_trans hle hin) hin
    · rename_i hlt
      have hhi : x < new.stop := by
        unfold WriteRequest.stop
        omega
      rw [and_iff_left hhi,h.start x,Option.isSome_iff_exists,and_iff_right hlt]
      constructor
      · rintro ⟨r,hlast⟩
        by_cases hcover : r.Covers x
        · exact .inl ⟨r,hlast,hcover⟩
        · exact .inr ⟨r,hlast,hcover⟩
      · rintro (⟨r,hlast,-⟩ | ⟨r,hlast,-⟩) <;> exact ⟨r,hlast⟩
  · rw [lastStart_append] at hlast
    split at hlast
    · rename_i hin
      cases hlast
      rw [WriteRequest.merge_dataAt hle (Nat.le_trans hle hin),if_pos hin]
    · rename_i hlt
      rw [hfront x r hlt hlast,if_pos ((hcovered x r hlast).mpr (.inl ⟨r,hlast,hcover⟩)),
        h.data x r hlast hcover]
  · obtain ⟨hlt,r,hlast,hcover⟩ := (inGap_append hsorted x).mp hgap
    rw [hfront x r hlt hlast]
    split
    · rename_i hin
      rcases (hcovered x r hlast).mp hin with ⟨other,hother,hdata⟩ | hold
      · rw [hlast] at hother
        cases hother
        exact absurd hdata hcover
      · exact h.gap x hold
    · rfl

theorem merged_groupsFrom (h : Merged group old)
    (hsorted : (group ++ rest).Pairwise (·.sector ≤ ·.sector))
    (hle : ∀ r ∈ rest, old.sector ≤ r.sector) :
    List.Forall₂ Merged (groupsFrom driver old group rest) (mergeFrom driver old rest) := by
  induction rest generalizing old group with
  | nil => exact .cons h .nil
  | cons new rest ih =>
    have hnew := hle new (mem_cons_self ..)
    have hgroup : ∀ r ∈ group, r.sector ≤ new.sector := fun r hr =>
      (pairwise_append.mp hsorted).2.2 r hr new (mem_cons_self ..)
    have hrest := fun r hr => hle r (mem_cons_of_mem _ hr)
    unfold groupsFrom mergeFrom
    split
    · refine ih (h.merge hnew hgroup) ?_ hrest
      rwa [append_assoc]
    · have hnext := (pairwise_append.mp hsorted).2.1
      exact .cons h (ih (merged_singleton new) hnext (pairwise_cons.mp hnext).1)

theorem exists_mem_of_forall₂ {α β : Type} {R : α → β → Prop} {xs : List α} {ys : List β} {a : α}
    (h : List.Forall₂ R xs ys) (ha : a ∈ xs) : ∃ b ∈ ys, R a b := by
  induction h with
  | nil => cases ha
  | cons hhead _ ih =>
    rcases mem_cons.mp ha with rfl | ha
    · exact ⟨_,mem_cons_self ..,hhead⟩
    · obtain ⟨b,hb,hab⟩ := ih ha
      exact ⟨b,mem_cons_of_mem _ hb,hab⟩

def Approved (driver : MergeRequests) : List WriteRequest → Nat → Prop
  | [], _ => False
  | first :: rest, x => from' first rest x
where
  from' : WriteRequest → List WriteRequest → Nat → Prop
  | _, [], _ => False
  | old, new :: rest, x =>
    if merges driver old new then
      (driver old.sector old.nbSectors new.sector new.nbSectors = true ∧
        old.stop ≤ x ∧ x < new.sector) ∨ from' (old.merge new) rest x
    else from' new rest x

/-- All requests were written, in any order: a sector has the data of one of them. -/
def Written (submitted : List WriteRequest) (before after : Nat → List UInt8) : Prop :=
  ∀ x, (∃ m ∈ submitted, m.Covers x ∧ after x = m.dataAt x) ∨
    (∀ m ∈ submitted, ¬ m.Covers x) ∧ after x = before x

structure Correct (driver : MergeRequests) (reqs : List WriteRequest)
    (before after : Nat → List UInt8) : Prop where
  data : ∀ x, (∃ r ∈ reqs, r.Covers x) → ∃ r ∈ reqs, r.Covers x ∧ after x = r.dataAt x
  rest : ∀ x, (∀ r ∈ reqs, ¬ r.Covers x) → ¬ Approved driver reqs x → after x = before x

structure SameShape (r other : WriteRequest) : Prop where
  sector : r.sector = other.sector
  nbSectors : r.nbSectors = other.nbSectors
  lengths : r.qiov.map List.length = other.qiov.map List.length

/-- Whatever the data of the requests and the device, the batch is written. -/
def WritesData (driver : MergeRequests) (reqs : List WriteRequest) : Prop :=
  ∀ others, List.Forall₂ SameShape reqs others → ∀ before after,
    Written (multiwriteMerge driver others) before after → Correct driver others before after

def Keeps (driver : MergeRequests) (reqs : List WriteRequest) : Prop :=
  ∀ x, (∃ r ∈ reqs, r.Covers x) →
    (∃ g ∈ groups driver reqs, HasData g x) ∧ ∀ g ∈ groups driver reqs, ¬ InGap g x

namespace SameShape

variable {r other r' other' : WriteRequest}

section

variable (h : SameShape r other)
include h

theorem covers (x : Nat) : r.Covers x ↔ other.Covers x := by
  unfold WriteRequest.Covers WriteRequest.stop
  rw [h.sector,h.nbSectors]

theorem stop : r.stop = other.stop := by
  unfold WriteRequest.stop
  rw [h.sector,h.nbSectors]

theorem merges (h' : SameShape r' other') (driver : MergeRequests) :
    Block.merges driver r r' = Block.merges driver other other' := by
  have hlen := congrArg List.length h.lengths
  have hlength' := congrArg List.length h'.lengths
  rw [length_map,length_map] at hlen hlength'
  unfold Block.merges
  rw [h.stop,h.sector,h.nbSectors,h'.sector,h'.nbSectors,hlen,hlength']

theorem merge (h' : SameShape r' other') : SameShape (r.merge r') (other.merge other') := by
  have hlengths :
      (mergedQiov r r').map List.length = (mergedQiov other other').map List.length := by
    unfold mergedQiov
    rw [h.sector,h'.sector,h.stop,h'.nbSectors]
    simp only [map_append]
    rw [Iovec.map_length_upTo 0 h.lengths,Iovec.map_length_upTo 0 h'.lengths]
  refine ⟨h.sector,?_,hlengths⟩
  unfold WriteRequest.merge
  dsimp only
  rw [length_flatten,length_flatten,hlengths]

theorem symm : SameShape other r := ⟨h.sector.symm,h.nbSectors.symm,h.lengths.symm⟩

end

variable {g g' : List WriteRequest}

section

variable (h : List.Forall₂ SameShape g g')
include h

theorem exists_lastStart {x : Nat}
    (hlast : lastStart g x = some r) : ∃ r', lastStart g' x = some r' ∧ SameShape r r' := by
  have hfilter : List.Forall₂ SameShape (g.filter (·.sector ≤ x)) (g'.filter (·.sector ≤ x)) := by
    refine rel_filter (fun a b hab => ?_) h
    dsimp only
    rw [hab.sector]
  have hreverse := forall₂_reverse_iff.mpr hfilter
  unfold lastStart at hlast ⊢
  rw [← List.head?_reverse] at hlast ⊢
  revert hlast hreverse
  generalize (g.filter (·.sector ≤ x)).reverse = l
  generalize (g'.filter (·.sector ≤ x)).reverse = l'
  rintro hlast (_ | ⟨hhead,-⟩)
  · cases hlast
  · cases hlast
    exact ⟨_,rfl,hhead⟩

theorem forall_symm : List.Forall₂ SameShape g' g := h.flip.imp fun _ _ => symm

theorem hasData {x : Nat} (hdata : HasData g x) : HasData g' x := by
  obtain ⟨r,hlast,hcover⟩ := hdata
  obtain ⟨r',hlast',hshape⟩ := exists_lastStart h hlast
  exact ⟨r',hlast',(hshape.covers x).mp hcover⟩

theorem inGap {x : Nat} (hgap : InGap g x) : InGap g' x := by
  obtain ⟨r,hlast,hcover,hlater⟩ := hgap
  obtain ⟨r',hlast',hshape⟩ := exists_lastStart h hlast
  obtain ⟨later,hmem,hlt⟩ := hlater
  obtain ⟨later',hmem',hlater⟩ := exists_mem_of_forall₂ h hmem
  exact ⟨r',hlast',fun hc => hcover ((hshape.covers x).mpr hc),later',hmem',hlater.sector ▸ hlt⟩

end

variable {others : List WriteRequest}

theorem groupsFrom {rest : List WriteRequest} (driver : MergeRequests) (h : SameShape r other)
    (hgroup : List.Forall₂ SameShape g g') (hrest : List.Forall₂ SameShape rest others) :
    List.Forall₂ (List.Forall₂ SameShape) (Block.groupsFrom driver r g rest)
      (Block.groupsFrom driver other g' others) := by
  induction hrest generalizing r other g g' with
  | nil => exact .cons hgroup .nil
  | cons hhead _ ih =>
    unfold Block.groupsFrom
    rw [h.merges hhead driver]
    split
    · exact ih (h.merge hhead) (rel_append hgroup (.cons hhead .nil))
    · exact .cons hgroup (ih hhead (.cons hhead .nil))

theorem groups {reqs : List WriteRequest} (driver : MergeRequests)
    (h : List.Forall₂ SameShape reqs others) :
    List.Forall₂ (List.Forall₂ SameShape) (Block.groups driver reqs)
      (Block.groups driver others) := by
  cases h with
  | nil => exact .nil
  | cons hhead hrest => exact groupsFrom driver hhead (.cons hhead .nil) hrest

theorem pairwise (h : List.Forall₂ SameShape g g') (hsorted : g.Pairwise (·.sector ≤ ·.sector)) :
    g'.Pairwise (·.sector ≤ ·.sector) := by
  have hmap : g.map WriteRequest.sector = g'.map WriteRequest.sector := by
    induction h with
    | nil => rfl
    | cons hhead _ ih =>
      rw [map_cons,map_cons,hhead.sector,ih (pairwise_cons.mp hsorted).2]
  rw [← pairwise_map (f := WriteRequest.sector) (R := (· ≤ ·))] at hsorted ⊢
  rwa [← hmap]

theorem keeps {driver : MergeRequests} {reqs : List WriteRequest}
    (h : List.Forall₂ SameShape reqs others) (hkeeps : Keeps driver reqs) : Keeps driver others :=
        by
  rintro x ⟨r,hr,hcover⟩
  obtain ⟨r',hr',hshape⟩ := exists_mem_of_forall₂ (forall_symm h) hr
  obtain ⟨⟨g,hg,hdata⟩,hgap⟩ := hkeeps x ⟨r',hr',(hshape.covers x).mp hcover⟩
  constructor
  · obtain ⟨g',hg',hsame⟩ := exists_mem_of_forall₂ (groups driver h) hg
    exact ⟨g',hg',hasData hsame hdata⟩
  · intro g' hg' hin
    obtain ⟨g,hg,hsame⟩ := exists_mem_of_forall₂ (groups driver (forall_symm h)) hg'
    exact hgap g hg (inGap hsame hin)

end SameShape

variable {reqs : List WriteRequest}

theorem merged_groups (driver : MergeRequests) (hsorted : reqs.Pairwise (·.sector ≤ ·.sector)) :
    List.Forall₂ Merged (groups driver reqs) (multiwriteMerge driver reqs) := by
  cases reqs with
  | nil => exact .nil
  | cons first rest =>
    exact merged_groupsFrom (merged_singleton first) hsorted (pairwise_cons.mp hsorted).1

variable {r : WriteRequest}

theorem mem_groupsFrom {g : List WriteRequest} (hg : g ∈ groupsFrom driver old group rest)
    (hr : r ∈ g) : r ∈ group ∨ r ∈ rest := by
  induction rest generalizing old group with
  | nil =>
    rw [mem_singleton.mp hg] at hr
    exact .inl hr
  | cons new rest ih =>
    unfold groupsFrom at hg
    split at hg
    · rcases ih hg with hgroup | hrest
      · rcases mem_append.mp hgroup with hgroup | hnew
        · exact .inl hgroup
        · rw [mem_singleton.mp hnew]
          exact .inr (mem_cons_self ..)
      · exact .inr (mem_cons_of_mem _ hrest)
    · rcases mem_cons.mp hg with rfl | hg
      · exact .inl hr
      · rcases ih hg with hnew | hrest
        · rw [mem_singleton.mp hnew]
          exact .inr (mem_cons_self ..)
        · exact .inr (mem_cons_of_mem _ hrest)

theorem mem_of_mem_groups {g : List WriteRequest} (hg : g ∈ groups driver reqs) (hr : r ∈ g) :
    r ∈ reqs := by
  cases reqs with
  | nil => cases hg
  | cons first rest =>
    rcases mem_groupsFrom hg hr with hfirst | hrest
    · rw [mem_singleton.mp hfirst]
      exact mem_cons_self ..
    · exact mem_cons_of_mem _ hrest

theorem mem_of_lastStart (h : lastStart group x = some r) : r ∈ group :=
  mem_of_mem_filter (mem_of_getLast? h)

theorem covers_mergeFrom {m : WriteRequest} (hm : m ∈ mergeFrom driver old rest)
    (hsorted : (old :: rest).Pairwise (·.sector ≤ ·.sector)) (hcover : m.Covers x) :
    old.Covers x ∨ (∃ r ∈ rest, r.Covers x) ∨ Approved.from' driver old rest x := by
  induction rest generalizing old with
  | nil =>
    rw [mem_singleton.mp hm] at hcover
    exact .inl hcover
  | cons new rest ih =>
    obtain ⟨hold,hrest⟩ := pairwise_cons.mp hsorted
    have hle := hold new (mem_cons_self ..)
    have hnew : new.Covers x → ∃ r ∈ new :: rest, r.Covers x := fun hc => ⟨new,mem_cons_self ..,hc⟩
    have hlater : (∃ r ∈ rest, r.Covers x) → ∃ r ∈ new :: rest, r.Covers x :=
      fun ⟨r,hr,hc⟩ => ⟨r,mem_cons_of_mem _ hr,hc⟩
    unfold mergeFrom at hm
    unfold Approved.from'
    split at hm
    · rename_i hmerges
      rw [if_pos hmerges]
      have hsorted' : (old.merge new :: rest).Pairwise (·.sector ≤ ·.sector) :=
        pairwise_cons.mpr ⟨fun r hr => hold r (mem_cons_of_mem _ hr),(pairwise_cons.mp hrest).2⟩
      rcases ih hm hsorted' with hin | hin | happroved
      · obtain ⟨hlow,hhi⟩ := hin
        rw [WriteRequest.merge_stop hle] at hhi
        by_cases hin : new.sector ≤ x
        · exact .inr (.inl (hnew ⟨hin,hhi⟩))
        by_cases hstop : x < old.stop
        · exact .inl ⟨hlow,hstop⟩
        refine .inr (.inr (.inl ⟨?_,by omega,by omega⟩))
        have hapart : ¬ new.sector ≤ old.stop := by omega
        simp only [merges,Bool.and_eq_true,Bool.or_eq_true,decide_eq_true_eq] at hmerges
        exact hmerges.1.resolve_left hapart
      · exact .inr (.inl (hlater hin))
      · exact .inr (.inr (.inr happroved))
    · rename_i hmerges
      rw [if_neg hmerges]
      rcases mem_cons.mp hm with rfl | hm
      · exact .inl hcover
      rcases ih hm hrest with hin | hin | happroved
      · exact .inr (.inl (hnew hin))
      · exact .inr (.inl (hlater hin))
      · exact .inr (.inr happroved)

theorem covers_multiwriteMerge {m : WriteRequest} (hm : m ∈ multiwriteMerge driver reqs)
    (hsorted : reqs.Pairwise (·.sector ≤ ·.sector)) (hcover : m.Covers x) :
    (∃ r ∈ reqs, r.Covers x) ∨ Approved driver reqs x := by
  cases reqs with
  | nil => cases hm
  | cons first rest =>
    rcases covers_mergeFrom hm hsorted hcover with hfirst | ⟨r,hr,hin⟩ | happroved
    · exact .inl ⟨first,mem_cons_self ..,hfirst⟩
    · exact .inl ⟨r,mem_cons_of_mem _ hr,hin⟩
    · exact .inr happroved

theorem Keeps.correct {before after : Nat → List UInt8} (h : Keeps driver reqs)
    (hsorted : reqs.Pairwise (·.sector ≤ ·.sector))
    (hwrite : Written (multiwriteMerge driver reqs) before after) :
    Correct driver reqs before after := by
  have hmerged := merged_groups driver hsorted
  refine ⟨fun x hcovered => ?_,fun x hnone happroved => ?_⟩
  · obtain ⟨⟨g,hg,hdata⟩,hgap⟩ := h x hcovered
    rcases hwrite x with ⟨m,hm,hcover,hafter⟩ | ⟨hnot,-⟩
    · obtain ⟨g,hg,hgrown⟩ := exists_mem_of_forall₂ hmerged.flip hm
      obtain ⟨r,hlast,hr⟩ := ((hgrown.covers x).mp hcover).resolve_right (hgap g hg)
      refine ⟨r,mem_of_mem_groups hg (mem_of_lastStart hlast),hr,?_⟩
      rw [hafter,hgrown.data x r hlast hr]
    · obtain ⟨m,hm,hgrown⟩ := exists_mem_of_forall₂ hmerged hg
      exact absurd ((hgrown.covers x).mpr (.inl hdata)) (hnot m hm)
  · rcases hwrite x with ⟨m,hm,hcover,-⟩ | ⟨-,hafter⟩
    · rcases covers_multiwriteMerge hm hsorted hcover with ⟨r,hr,hin⟩ | hin
      · exact absurd hin (hnone r hr)
      · exact absurd hin happroved
    · exact hafter

def WriteRequest.ones (r : WriteRequest) : WriteRequest where
  sector := r.sector
  nbSectors := r.nbSectors
  qiov := r.qiov.map (·.map fun _ => 1)
  size := by
    rw [← List.map_flatten,List.length_map,r.size]

theorem WriteRequest.sameShape_ones (r : WriteRequest) : SameShape r r.ones := by
  refine ⟨rfl,rfl,?_⟩
  simp [ones]

theorem WriteRequest.ones_dataAt (h : r.Covers x) : r.ones.dataAt x ≠ zeros := by
  intro heq
  have hsize := r.size
  obtain ⟨hlow,hhi⟩ := h
  unfold stop at hhi
  have hbyte := congrArg (·[0]?) heq
  unfold dataAt ones at hbyte
  dsimp only at hbyte
  rw [← map_flatten,List.getElem?_take_of_lt (by decide),List.getElem?_drop,
    List.getElem?_map,List.getElem?_eq_getElem (by omega)] at hbyte
  cases hbyte

theorem exists_written (submitted : List WriteRequest) (before : Nat → List UInt8) {x : Nat}
    (value : List UInt8) (h : (∃ m ∈ submitted, m.Covers x ∧ value = m.dataAt x) ∨
      (∀ m ∈ submitted, ¬ m.Covers x) ∧ value = before x) :
    ∃ after, Written submitted before after ∧ after x = value := by
  have hsome : ∀ y, ∃ value, (∃ m ∈ submitted, m.Covers y ∧ value = m.dataAt y) ∨
      (∀ m ∈ submitted, ¬ m.Covers y) ∧ value = before y := by
    intro y
    by_cases hcover : ∃ m ∈ submitted, m.Covers y
    · obtain ⟨m,hm,hin⟩ := hcover
      exact ⟨m.dataAt y,.inl ⟨m,hm,hin,rfl⟩⟩
    · exact ⟨before y,.inr ⟨fun m hm hin => hcover ⟨m,hm,hin⟩,rfl⟩⟩
  choose other hother using hsome
  refine ⟨update other x value,fun y => ?_,update_self ..⟩
  by_cases hy : y = x
  · subst hy
    rwa [update_self]
  · rw [update_of_ne hy]
    exact hother y

theorem WritesData.keeps (hsorted : reqs.Pairwise (·.sector ≤ ·.sector))
    (h : WritesData driver reqs) : Keeps driver reqs := by
  have hshape : List.Forall₂ SameShape reqs (reqs.map WriteRequest.ones) := by
    rw [forall₂_map_right_iff]
    exact forall₂_same.mpr fun r _ => r.sameShape_ones
  have hsorted' : (reqs.map WriteRequest.ones).Pairwise (·.sector ≤ ·.sector) := by
    rw [pairwise_map]
    exact hsorted
  have hmerged := merged_groups driver hsorted'
  have hnonzero : ∀ x, (∃ r ∈ reqs, r.Covers x) →
      ¬ ((∃ m ∈ multiwriteMerge driver (reqs.map WriteRequest.ones), m.Covers x ∧
          WriteRequest.zeros = m.dataAt x) ∨
        (∀ m ∈ multiwriteMerge driver (reqs.map WriteRequest.ones), ¬ m.Covers x) ∧
          WriteRequest.zeros = WriteRequest.zeros) := by
    rintro x ⟨r,hr,hcover⟩ hz
    obtain ⟨after,hwrite,hafter⟩ := exists_written _ (fun _ => WriteRequest.zeros)
        WriteRequest.zeros hz
    obtain ⟨r',hr',hcovers',hdata⟩ := (h _ hshape _ _ hwrite).data x ⟨r.ones,List.mem_map_of_mem hr,
        hcover⟩
    obtain ⟨s,hs,rfl⟩ := mem_map.mp hr'
    exact WriteRequest.ones_dataAt (show s.Covers x from hcovers') (hdata.symm.trans hafter)
  apply SameShape.keeps (SameShape.forall_symm hshape)
  rintro x ⟨r,hr,hcover⟩
  obtain ⟨s,hs,rfl⟩ := mem_map.mp hr
  have hnot := hnonzero x ⟨s,hs,hcover⟩
  have hgap : ∀ g ∈ groups driver (reqs.map WriteRequest.ones), ¬ InGap g x := by
    intro g hg hin
    obtain ⟨m,hm,hgrown⟩ := exists_mem_of_forall₂ hmerged hg
    exact hnot (.inl ⟨m,hm,(hgrown.covers x).mpr (.inr hin),(hgrown.gap x hin).symm⟩)
  refine ⟨?_,hgap⟩
  by_contra hdata
  refine hnot (.inr ⟨fun m hm hin => ?_,rfl⟩)
  obtain ⟨g,hg,hgrown⟩ := exists_mem_of_forall₂ hmerged.flip hm
  exact ((hgrown.covers x).mp hin).elim (fun hd => hdata ⟨g,hg,hd⟩) (hgap g hg)

/-- A batch is written, whatever its data are, if and only if its sectors are kept. -/
theorem writesData_iff (driver : MergeRequests) (reqs : List WriteRequest)
    (hsorted : reqs.Pairwise (·.sector ≤ ·.sector)) :
    WritesData driver reqs ↔ Keeps driver reqs := by
  refine ⟨WritesData.keeps hsorted,fun hkeeps others hshape before after hwrite => ?_⟩
  exact (SameShape.keeps hshape hkeeps).correct (SameShape.pairwise hshape hsorted) hwrite

def zeroRequest (sector nbSectors : Nat) : WriteRequest where
  sector := sector
  nbSectors := nbSectors
  qiov := [List.replicate (nbSectors*512) 0]
  size := by simp

theorem writesData_iff_longer :
    WritesData (fun _ _ _ _ => false) [zeroRequest 0 1, zeroRequest 0 2] := by
  have hsorted : [zeroRequest 0 1,zeroRequest 0 2].Pairwise (·.sector ≤ ·.sector) :=
    .cons (by intro r hr; rw [mem_singleton.mp hr]; exact Nat.le_refl 0) (pairwise_singleton _ _)
  refine (writesData_iff _ _ hsorted).mpr fun x hcovered => ?_
  have hlast : lastStart [zeroRequest 0 1,zeroRequest 0 2] x = some (zeroRequest 0 2) :=
    (lastStart_append [zeroRequest 0 1] _ x).trans (if_pos (Nat.zero_le x))
  have hcover : (zeroRequest 0 2).Covers x := by
    obtain ⟨r,hr,-,hlt⟩ := hcovered
    refine ⟨Nat.zero_le x,?_⟩
    rcases mem_cons.mp hr with rfl | hr
    · exact Nat.lt_succ_of_lt hlt
    · rwa [mem_singleton.mp hr] at hlt
  refine ⟨⟨_,mem_singleton.mpr rfl,_,hlast,hcover⟩,fun g hg => ?_⟩
  rw [show g = [zeroRequest 0 1,zeroRequest 0 2] from mem_singleton.mp hg]
  rintro ⟨r,hr,hnot,-⟩
  cases hr
  exact hnot hcover

/-- The end of a request is lost when another one lies inside it. -/
theorem contained_request_drops_end :
    (zeroRequest 0 4).Covers 3 ∧
      (∀ m ∈ multiwriteMerge (fun _ _ _ _ => false) [zeroRequest 0 4, zeroRequest 1 1],
        ¬ m.Covers 3) ∧
      ¬ WritesData (fun _ _ _ _ => false) [zeroRequest 0 4, zeroRequest 1 1] := by
  have hsorted : [zeroRequest 0 4,zeroRequest 1 1].Pairwise (·.sector ≤ ·.sector) :=
    .cons (by intro r hr; rw [mem_singleton.mp hr]; exact Nat.zero_le 1) (pairwise_singleton _ _)
  have hcover : (zeroRequest 0 4).Covers 3 := by decide
  refine ⟨hcover,fun m hm hin => ?_,fun hwrites => ?_⟩
  · rw [show m = (zeroRequest 0 4).merge (zeroRequest 1 1) from mem_singleton.mp hm] at hin
    have hstop := hin.2
    rw [WriteRequest.merge_stop (by decide)] at hstop
    exact absurd hstop (by decide)
  · obtain ⟨⟨g,hg,r,hlast,hr⟩,-⟩ := hwrites.keeps hsorted 3 ⟨_,mem_cons_self ..,hcover⟩
    rw [show g = [zeroRequest 0 4,zeroRequest 1 1] from mem_singleton.mp hg] at hlast
    have hlast' : lastStart [zeroRequest 0 4,zeroRequest 1 1] 3 = some (zeroRequest 1 1) :=
      (lastStart_append [zeroRequest 0 4] _ 3).trans (if_pos (by decide))
    cases hlast
    exact absurd hr (by decide)

end Hqemu.Block
