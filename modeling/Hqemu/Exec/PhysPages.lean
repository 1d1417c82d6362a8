import Mathlib.Logic.Function.Basic

/-! The descriptors of the pages of physical memory. -/
namespace Hqemu.Exec.PhysPages
open Function Option

structure PhysPageDesc where
  physOffset : Nat
  regionOffset : Nat
deriving DecidableEq

def l2Size : Nat := 1 <<< 10

def ioMemUnassigned : Nat := 2 <<< 3

/-- The leaves of `l1_phys_map`: the tables above lead to the leaf with the number
`index / L2_SIZE`. `bits` is `TARGET_PAGE_BITS`. An index is that of a page of the guest's
physical address space, so that shifting it stays within the 64 bits of `ram_addr_t`. -/
abbrev PhysMap := Nat → Option (Nat → PhysPageDesc)

variable (bits : Nat)

def alloc (map : PhysMap) (index : Nat) : PhysMap :=
  if map (index/l2Size) = none then
    update map (index/l2Size) (some fun i => ⟨ioMemUnassigned,(index+i) <<< bits⟩)
  else map

def physPageFind (map : PhysMap) (index : Nat) : Option PhysPageDesc :=
  (map (index/l2Size)).map fun pd => pd (index%l2Size)

/-- A range that is mapped gives each of its pages a descriptor. -/
def assign (map : PhysMap) (index : Nat) (desc : PhysPageDesc) : PhysMap :=
  let map := alloc bits map index
  update map (index/l2Size)
    ((map (index/l2Size)).map fun pd => update pd (index%l2Size) desc)

def mapped : List (Nat × PhysPageDesc) → PhysMap
  | [] => fun _ => none
  | page :: earlier => assign bits (mapped earlier) page.1 page.2

/-- Where there is no descriptor, a page is unassigned and accessed by its address. -/
def report (map : PhysMap) (index : Nat) : PhysPageDesc :=
  (physPageFind map index).getD ⟨ioMemUnassigned,index <<< bits⟩

/-- The page that is assigned first in a leaf is the first of the leaf. -/
def FirstTouched : List (Nat × PhysPageDesc) → Prop
  | [] => True
  | page :: earlier =>
    ((∀ other ∈ earlier, other.1/l2Size ≠ page.1/l2Size) → l2Size ∣ page.1) ∧
      FirstTouched earlier

variable {bits} {map : PhysMap} {desc : PhysPageDesc}

theorem report_assign {page : Nat} (hfirst : map (page/l2Size) = none → l2Size ∣ page)
    (index : Nat) : report bits (assign bits map page desc) index =
      if index = page then desc else report bits map index := by
  have hparts := Nat.div_add_mod index l2Size
  have hpage := Nat.div_add_mod page l2Size
  unfold report physPageFind assign
  by_cases hleaf : index/l2Size = page/l2Size
  · have hslot : index = page ↔ index%l2Size = page%l2Size :=
      ⟨fun h => by rw [h],fun h => by rw [← hparts,← hpage,hleaf,h]⟩
    rw [hleaf,update_self]
    cases hmap : map (page/l2Size) with
    | none =>
      obtain ⟨leaf,rfl⟩ := hfirst hmap
      have hindex : l2Size*leaf+index%l2Size = index := by
        rw [Nat.mul_div_cancel_left _ (by decide)] at hleaf
        rw [← hleaf,hparts]
      simp [alloc,hmap,update_apply,hslot,hindex]
    | some pd => simp [alloc,hmap,update_apply,hslot]
  · rw [if_neg fun h => hleaf (by rw [h]),update_of_ne hleaf]
    unfold alloc
    split
    · rw [update_of_ne hleaf]
    · rfl

theorem leaf_none {pages : List (Nat × PhysPageDesc)} {leaf : Nat}
    (h : mapped bits pages leaf = none) : ∀ page ∈ pages, page.1/l2Size ≠ leaf := by
  induction pages with
  | nil => exact nofun
  | cons page earlier ih =>
    simp only [mapped,assign,alloc] at h
    by_cases hleaf : leaf = page.1/l2Size
    · subst hleaf
      split at h <;> simp_all
    · rw [update_of_ne hleaf] at h
      refine List.forall_mem_cons.mpr ⟨Ne.symm hleaf,ih ?_⟩
      split at h
      · rwa [update_of_ne hleaf] at h
      · exact h

/-- A page has the descriptor it was given last, or is unassigned at its own address, if every leaf
is first touched at its first page. -/
theorem report_of_firstTouched (pages : List (Nat × PhysPageDesc)) (hfirst : FirstTouched pages)
    (index : Nat) : report bits (mapped bits pages) index =
      ((pages.find? fun page => page.1 = index).map Prod.snd).getD
        ⟨ioMemUnassigned,index <<< bits⟩ := by
  induction pages with
  | nil => rfl
  | cons page earlier ih =>
    rw [mapped,report_assign fun h => hfirst.1 (leaf_none h),ih hfirst.2,List.find?_cons]
    by_cases heq : page.1 = index
    · simp [heq]
    · simp [heq,Ne.symm heq]

theorem report_of_firstTouched_one :
    report 12 (mapped 12 [(1024,⟨0,0⟩)]) 1027 = ⟨ioMemUnassigned,1027 <<< 12⟩ :=
  report_of_firstTouched [(1024,⟨0,0⟩)] ⟨fun _ => by decide,trivial⟩ 1027

/-- The offsets of a leaf are counted from the page that was touched first. -/
theorem report_neighbour :
    report 12 (mapped 12 [(1,⟨0,0⟩)]) 0 ≠ ⟨ioMemUnassigned,0 <<< 12⟩ := by decide

end Hqemu.Exec.PhysPages
