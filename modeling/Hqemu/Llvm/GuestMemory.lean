import Mathlib.Data.List.Sort
import Hqemu.Lib.Bytes

/-! `CombindContiguousMemory` of `llvm-pass.cpp`: reads from one base address that lie side by side
become one wide read where the earliest is. -/
namespace Hqemu.Llvm.GuestMemory

open List

open Lib.Bytes (Mem load store Covers)

structure Access where
  base : Nat
  off : Int
  size : Nat
  pos : 0 < size
deriving DecidableEq

inductive Op
  | read (a : Access)
  | write (a : Access)
deriving DecidableEq

structure StripInfo where
  off : Int
  size : Nat
  id : Nat
deriving DecidableEq, Repr

def memRead (b : Nat) : Nat → List Op → List StripInfo
  | _, [] => []
  | id, .read a :: l =>
    if a.base = b then ⟨a.off,a.size,id⟩ :: memRead b (id+1) l else memRead b (id+1) l
  | id, .write _ :: l => memRead b (id+1) l

def stripList (seg : List Op) (b : Nat) : List StripInfo :=
  (memRead b 0 seg).insertionSort fun s t => s.off ≤ t.off

def envelopLoop (isStore : Bool) : List StripInfo → Nat → Nat → Nat → Option Nat
  | s1 :: s2 :: l, i, id, idx =>
    if s1.off + s1.size ≠ s2.off then none
    else if isStore = false ∧ s2.id < id ∨ isStore = true ∧ s2.id > id then
      envelopLoop isStore (s2 :: l) (i+1) s2.id (i+1)
    else envelopLoop isStore (s2 :: l) (i+1) id idx
  | _, _, _, idx => some idx

structure Envelop where
  min : Int
  max : Int
  idx : Nat
deriving DecidableEq, Repr

def computeEnvelop (guestBase : Int) (isStore : Bool) (SL : List StripInfo) : Option Envelop :=
  match SL.head?, SL.getLast? with
  | some first, some last =>
    match envelopLoop isStore SL 0 first.id 0 with
    | none => none
    | some idx =>
      if first.off - guestBase ≠ 0 then none
      else some ⟨first.off,last.off+last.size,idx⟩
  | _, _ => none

def folded (guestBase : Int) (seg : List Op) (b : Nat) : Option Envelop :=
  if (stripList seg b).length ≤ 1 then none
  else computeEnvelop guestBase false (stripList seg b)

def insertPos (seg : List Op) (b : Nat) (E : Envelop) : Option Nat :=
  ((stripList seg b)[E.idx]?).map StripInfo.id

inductive Code
  | op (id : Nat) (o : Op)
  | wide (base : Nat) (min : Int) (size : Nat)
  | part (base shift bits : Nat)
deriving DecidableEq

def foldOp (guestBase : Int) (seg : List Op) (id : Nat) : Op → List Code
  | .write a => [.op id (.write a)]
  | .read a =>
    match folded guestBase seg a.base with
    | none => [.op id (.read a)]
    | some E =>
      (if insertPos seg a.base E = some id then [.wide a.base E.min (E.max-E.min).toNat]
        else []) ++ [.part a.base ((a.off-E.min) * 8).toNat (8*a.size)]

def foldFrom (guestBase : Int) (seg : List Op) : Nat → List Op → List Code
  | _, [] => []
  | id, o :: l => foldOp guestBase seg id o ++ foldFrom guestBase seg (id+1) l

def combindContiguousMemory (guestBase : Int) (seg : List Op) : List Code :=
  foldFrom guestBase seg 0 seg

/-- What the rest of the code computes from the reads so far: a base address, by its first
use, and the value of each write. -/
structure Env (w : Nat) where
  base : Nat → List Nat → BitVec w
  value : Nat → List Nat → Nat

structure State (w : Nat) where
  mem : Mem w
  bases : Nat → Option (BitVec w)
  /-- The values read, the latest one first. -/
  reads : List Nat
  wide : Nat → Nat

variable {w : Nat}

def State.base (env : Env w) (x : State w) (b : Nat) : BitVec w :=
  (x.bases b).getD (env.base b x.reads)

def State.define (env : Env w) (x : State w) (b : Nat) : State w :=
  { x with bases := Function.update x.bases b (some (x.base env b)) }

def State.addr (env : Env w) (x : State w) (b : Nat) (off : Int) : BitVec w :=
  x.base env b + BitVec.ofInt w off

def stepOp (env : Env w) (id : Nat) (x : State w) : Op → State w
  | .read a =>
    { x.define env a.base with
      reads := load x.mem (x.addr env a.base a.off) a.size :: x.reads }
  | .write a =>
    { x.define env a.base with
      mem := store x.mem (x.addr env a.base a.off) a.size (env.value id x.reads) }

def stepCode (env : Env w) (x : State w) : Code → State w
  | .op id o => stepOp env id x o
  | .wide b min size =>
    { x.define env b with
      wide := Function.update x.wide b (load x.mem (x.addr env b min) size) }
  | .part b shift bits => { x with reads := ((x.wide b >>> shift) % 2^bits) :: x.reads }

def exec (env : Env w) : Nat → State w → List Op → State w
  | _, x, [] => x
  | id, x, o :: l => exec env (id+1) (stepOp env id x o) l

def execCode (env : Env w) (x : State w) (l : List Code) : State w := l.foldl (stepCode env) x

def start (m : Mem w) : State w := ⟨m,fun _ => none,[],fun _ => 0⟩

def Preserves (w : Nat) (guestBase : Int) (seg : List Op) : Prop :=
  ∀ (env : Env w) (m : Mem w),
    (execCode env (start m) (combindContiguousMemory guestBase seg)).reads =
      (exec env 0 (start m) seg).reads ∧
    (execCode env (start m) (combindContiguousMemory guestBase seg)).mem =
      (exec env 0 (start m) seg).mem

def Contiguous (s t : StripInfo) : Prop := s.off+s.size = t.off

instance : DecidableRel Contiguous := fun s t =>
  inferInstanceAs (Decidable (s.off+s.size = t.off))

/-- There are several reads from `b`, and in the order of their offsets they lie side by side
from the guest base on. -/
def Folds (guestBase : Int) (seg : List Op) (b : Nat) : Prop :=
  1 < (stripList seg b).length ∧ (stripList seg b).IsChain Contiguous ∧
    (stripList seg b).head?.map StripInfo.off = some guestBase

def ReadsAt (seg : List Op) (k b : Nat) (a : Access) : Prop :=
  seg[k]? = some (.read a) ∧ a.base = b

def WritesAt (seg : List Op) (k : Nat) (a : Access) : Prop := seg[k]? = some (.write a)

variable {b : Nat} {s : StripInfo}

theorem mem_memRead {id : Nat} {l : List Op} :
    s ∈ memRead b id l ↔ ∃ k a, ReadsAt l k b a ∧ s = ⟨a.off,a.size,id+k⟩ := by
  induction l generalizing id with
  | nil => simp [memRead,ReadsAt]
  | cons o l ih =>
    have hsplit : (∃ k a, ReadsAt (o :: l) k b a ∧ s = ⟨a.off,a.size,id+k⟩) ↔
        (∃ a, o = .read a ∧ a.base = b ∧ s = ⟨a.off,a.size,id⟩) ∨
          ∃ k a, ReadsAt l k b a ∧ s = ⟨a.off,a.size,id+1+k⟩ := by
      constructor
      · rintro ⟨k,a,⟨hget,hb⟩,hs⟩
        cases k with
        | zero => exact .inl ⟨a,by simpa using hget,hb,hs⟩
        | succ k =>
          have hid : id+(k+1) = id+1+k := by omega
          exact .inr ⟨k,a,⟨by simpa using hget,hb⟩,hid ▸ hs⟩
      · rintro (⟨a,rfl,hb,hs⟩ | ⟨k,a,⟨hget,hb⟩,hs⟩)
        · exact ⟨0,a,⟨rfl,hb⟩,hs⟩
        · have hid : id+(k+1) = id+1+k := by omega
          exact ⟨k+1,a,⟨by simpa using hget,hb⟩,hid ▸ hs⟩
    rw [hsplit,← ih]
    cases o with
    | write a => simp [memRead]
    | read a =>
      by_cases hb : a.base = b
      · rw [memRead,if_pos hb,mem_cons]
        simp [hb]
      · rw [memRead,if_neg hb]
        simp [hb]

variable {seg : List Op}

theorem mem_stripList : s ∈ stripList seg b ↔ ∃ k a, ReadsAt seg k b a ∧ s = ⟨a.off,a.size,k⟩ := by
  rw [stripList,mem_insertionSort,mem_memRead]
  simp

variable {l : List StripInfo}

theorem chain_bounds {first last : StripInfo} (hchain : (first :: l).IsChain Contiguous)
    (hlast : (first :: l).getLast? = some last) :
    ∀ s ∈ first :: l, first.off ≤ s.off ∧ s.off+s.size ≤ last.off+last.size := by
  induction l generalizing first with
  | nil =>
    intro s hs
    simp only [List.getLast?_singleton,Option.some.injEq] at hlast
    rw [mem_singleton.mp hs,hlast]
    omega
  | cons second l ih =>
    rw [isChain_cons_cons] at hchain
    have hnext : first.off+first.size = second.off := hchain.1
    have hrest := ih hchain.2 (by rw [← hlast,List.getLast?_cons_cons])
    intro s hs
    rcases mem_cons.mp hs with rfl | hs
    · have hsound := hrest second mem_cons_self
      omega
    · have hle := hrest s hs
      omega

theorem envelopLoop_isSome {isStore : Bool} {i id idx : Nat} :
    (envelopLoop isStore l i id idx).isSome ↔ l.IsChain Contiguous := by
  fun_induction envelopLoop isStore l i id idx with
  | case1 s1 s2 l i id idx hne =>
    rw [isChain_cons_cons,Contiguous]
    simp [hne]
  | case2 s1 s2 l i id idx heq _ ih | case3 s1 s2 l i id idx heq _ ih =>
    rw [ih,isChain_cons_cons,Contiguous]
    simp [not_not.mp heq]
  | case4 l i id idx hshort =>
    rcases l with _ | ⟨s1,_ | ⟨s2,l⟩⟩
    · simp
    · simp
    · exact (hshort s1 s2 l rfl).elim

theorem envelopLoop_min {SL pre : List StripInfo} {t : StripInfo} {idx j : Nat}
    (hSL : SL = pre ++ s :: l) (ht : SL[idx]? = some t) (hmin : ∀ u ∈ pre ++ [s], t.id ≤ u.id)
    (h : envelopLoop false (s :: l) pre.length t.id idx = some j) :
    ∃ t, SL[j]? = some t ∧ ∀ u ∈ SL, t.id ≤ u.id := by
  induction l generalizing pre s t idx with
  | nil =>
    simp only [envelopLoop,Option.some.injEq] at h
    subst h
    exact ⟨t,ht,hSL ▸ hmin⟩
  | cons s2 l ih =>
    unfold envelopLoop at h
    by_cases hne : s.off+s.size ≠ s2.off
    · rw [if_pos hne] at h
      cases h
    · rw [if_neg hne] at h
      have hSL' : SL = (pre ++ [s]) ++ s2 :: l := by simp [hSL]
      have hlen : (pre ++ [s]).length = pre.length+1 := by simp
      by_cases hlt : s2.id < t.id
      · rw [if_pos (by simp [hlt])] at h
        rw [← hlen] at h
        apply ih hSL' _ _ h
        · rw [hSL',List.getElem?_append_right (Nat.le_refl _)]
          simp
        · intro u hu
          rcases mem_append.mp hu with hu | hu
          · have := hmin u hu
            omega
          · rw [mem_singleton.mp hu]
      · rw [if_neg (by simp [hlt])] at h
        rw [← hlen] at h
        apply ih hSL' ht _ h
        intro u hu
        rcases mem_append.mp hu with hu | hu
        · exact hmin u hu
        · rw [mem_singleton.mp hu]
          omega

structure IsEnvelop (seg : List Op) (b : Nat) (E : Envelop) (e : Nat) : Prop where
  inside : ∀ k a, ReadsAt seg k b a → E.min ≤ a.off ∧ a.off+a.size ≤ E.max
  place : insertPos seg b E = some e
  reads : ∃ a, ReadsAt seg e b a
  first : ∀ k a, ReadsAt seg k b a → e ≤ k

variable {guestBase : Int}

theorem computeEnvelop_eq_some {E : Envelop}
    (h : computeEnvelop guestBase false (stripList seg b) = some E) :
    (stripList seg b).IsChain Contiguous ∧
      (stripList seg b).head?.map StripInfo.off = some guestBase ∧ ∃ e, IsEnvelop seg b E e := by
  unfold computeEnvelop at h
  cases hSL : stripList seg b with
  | nil => simp [hSL] at h
  | cons first l =>
    obtain ⟨last,hlast⟩ : ∃ last, (first :: l).getLast? = some last :=
      ⟨_,List.getLast?_eq_getLast_of_ne_nil (cons_ne_nil _ _)⟩
    simp only [hSL,List.head?_cons,hlast] at h
    cases hloop : envelopLoop false (first :: l) 0 first.id 0 with
    | none => simp [hloop] at h
    | some idx =>
      have hchain : (first :: l).IsChain Contiguous := by
        rw [← envelopLoop_isSome,hloop]
        rfl
      simp only [hloop] at h
      by_cases hbase : first.off-guestBase ≠ 0
      · rw [if_pos hbase] at h
        cases h
      · rw [if_neg hbase,Option.some.injEq] at h
        subst h
        obtain ⟨t,ht,hmin⟩ := envelopLoop_min (s := first) (l := l)
          (nil_append (first :: l)).symm rfl (by simp) hloop
        refine ⟨hchain,by simp; omega,t.id,?_⟩
        constructor
        · intro k a hk
          apply chain_bounds hchain hlast ⟨a.off,a.size,k⟩
          rw [← hSL,mem_stripList]
          exact ⟨k,a,hk,rfl⟩
        · rw [insertPos,hSL,ht]
          rfl
        · have hmem : t ∈ stripList seg b := hSL ▸ mem_of_getElem? ht
          obtain ⟨k,a,hk,rfl⟩ := mem_stripList.mp hmem
          exact ⟨a,hk⟩
        · intro k a hk
          apply hmin ⟨a.off,a.size,k⟩
          rw [← hSL,mem_stripList]
          exact ⟨k,a,hk,rfl⟩

theorem folded_eq_some {E : Envelop} (h : folded guestBase seg b = some E) :
    Folds guestBase seg b ∧ ∃ e, IsEnvelop seg b E e := by
  unfold folded at h
  split at h
  · cases h
  · obtain ⟨hchain,hhead,he⟩ := computeEnvelop_eq_some h
    exact ⟨⟨by omega,hchain,hhead⟩,he⟩

theorem Folds.folded (h : Folds guestBase seg b) : ∃ E, folded guestBase seg b = some E := by
  obtain ⟨hlen,hchain,hhead⟩ := h
  unfold GuestMemory.folded computeEnvelop
  rw [if_neg (by omega)]
  cases hSL : stripList seg b with
  | nil => simp [hSL] at hlen
  | cons first l =>
    obtain ⟨last,hlast⟩ : ∃ last, (first :: l).getLast? = some last :=
      ⟨_,List.getLast?_eq_getLast_of_ne_nil (cons_ne_nil _ _)⟩
    have hsome : (envelopLoop false (first :: l) 0 first.id 0).isSome := by
      rw [envelopLoop_isSome,← hSL]
      exact hchain
    obtain ⟨idx,hindex⟩ := Option.isSome_iff_exists.mp hsome
    have hbase : first.off = guestBase := by simpa [hSL] using hhead
    simp only [List.head?_cons,hlast,hindex]
    rw [if_neg (by omega)]
    exact ⟨_,rfl⟩

def Meets (w : Nat) (a r : Access) : Prop :=
  ∃ j < r.size, Covers (BitVec.ofInt w a.off) a.size (BitVec.ofInt w r.off + BitVec.ofNat w j)

/-- Between two reads from a folded base, every write goes to the same base and past what the
later one reads. -/
def Safe (w : Nat) (guestBase : Int) (seg : List Op) : Prop :=
  ∀ b, Folds guestBase seg b → ∀ e p q a₀ a r, e < p → p < q →
    ReadsAt seg e b a₀ → WritesAt seg p a → ReadsAt seg q b r → a.base = b ∧ ¬ Meets w a r

end Hqemu.Llvm.GuestMemory
