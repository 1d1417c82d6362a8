import Mathlib.Data.Nat.Bitwise

/-! Bit fields of natural numbers. A field is given by its lowest bit and its width;
all facts are proved bit by bit. -/
namespace Hqemu.Lib.Bits

open Nat

/-- The bits of `x` where `mask` is set, those of `v` elsewhere. -/
def blend (v mask x : Nat) : Nat := v ^^^ ((v ^^^ x) &&& mask)

def field (low width : Nat) : Nat := (2^width-1) <<< low

def extract (v low width : Nat) : Nat := (v >>> low) % 2^width

def insert (v low width x : Nat) : Nat := blend v (field low width) (x <<< low)

theorem testBit_blend (v mask x i : Nat) :
    (blend v mask x).testBit i = if mask.testBit i then x.testBit i else v.testBit i := by
  unfold blend
  rw [testBit_xor,testBit_and,testBit_xor]
  cases mask.testBit i <;> simp

theorem testBit_field (low width i : Nat) :
    (field low width).testBit i = (decide (low ≤ i) && decide (i < low+width)) := by
  unfold field
  rw [testBit_shiftLeft,testBit_two_pow_sub_one]
  by_cases hlow : low ≤ i
  · simp only [hlow,decide_true,Bool.true_and]
    congr 1
    simp only [eq_iff_iff]
    omega
  · simp [hlow]

theorem testBit_extract (v low width i : Nat) :
    (extract v low width).testBit i = (decide (i < width) && v.testBit (low+i)) := by
  unfold extract
  rw [testBit_mod_two_pow,testBit_shiftRight]

theorem testBit_insert (v low width x i : Nat) :
    (insert v low width x).testBit i =
      if low ≤ i ∧ i < low + width then x.testBit (i-low) else v.testBit i := by
  unfold insert
  rw [testBit_blend,testBit_field,testBit_shiftLeft]
  by_cases hlow : low ≤ i <;> simp [hlow]

theorem extract_lt (v low width : Nat) : extract v low width < 2^width :=
  mod_lt _ (Nat.two_pow_pos width)

theorem testBit_of_lt {x width i : Nat} (hx : x < 2^width) (hi : width ≤ i) : x.testBit i = false :=
  testBit_lt_two_pow (Nat.lt_of_lt_of_le hx (Nat.pow_le_pow_right (by decide) hi))

theorem extract_insert {x width : Nat} (v low : Nat) (hx : x < 2^width) :
    extract (insert v low width x) low width = x := by
  apply eq_of_testBit_eq
  intro i
  rw [testBit_extract,testBit_insert]
  by_cases hi : i < width
  · have hin : low ≤ low+i ∧ low+i < low+width := by omega
    simp [hi]
  · simp [hi,testBit_of_lt hx (Nat.not_lt.mp hi)]

theorem insert_extract (v low width : Nat) : insert v low width (extract v low width) = v := by
  apply eq_of_testBit_eq
  intro i
  rw [testBit_insert,testBit_extract]
  split
  · rename_i hin
    have hlt : i-low < width := by omega
    simp [hlt,hin.1]
  · rfl

theorem insert_insert (v low width x y : Nat) :
    insert (insert v low width x) low width y = insert v low width y := by
  apply eq_of_testBit_eq
  intro i
  simp only [testBit_insert]
  split
  · rfl
  · rfl

theorem extract_insert_zero {v x size low width : Nat} (hin : low+width ≤ size) :
    extract (insert v 0 size x) low width = extract x low width := by
  apply eq_of_testBit_eq
  intro i
  simp only [testBit_extract,testBit_insert,Nat.zero_le,Nat.zero_add,true_and,Nat.sub_zero]
  by_cases hi : i < width
  · have hlt : low+i < size := by omega
    simp [hlt]
  · simp [hi]

theorem insert_insert_zero {v x y size low width : Nat} (hin : low+width ≤ size) :
    insert (insert v 0 size x) low width y = insert v 0 size (insert x low width y) := by
  apply eq_of_testBit_eq
  intro i
  simp only [testBit_insert,Nat.zero_le,Nat.zero_add,true_and,Nat.sub_zero]
  by_cases hi : low ≤ i ∧ i < low+width
  · have hlt : i < size := by omega
    simp [hi,hlt]
  · simp [hi]

theorem insert_lt {v x size low width : Nat} (hv : v < 2^size) (hin : low+width ≤ size) :
    insert v low width x < 2^size := by
  apply lt_pow_two_of_testBit
  intro i hi
  rw [testBit_insert,if_neg (by omega)]
  exact testBit_of_lt hv hi

theorem insert_mod (v low width x : Nat) :
    insert v low width (x%2^width) = insert v low width x := by
  apply eq_of_testBit_eq
  intro i
  simp only [testBit_insert,testBit_mod_two_pow]
  split
  · rename_i hin
    have hlt : i-low < width := by omega
    simp [hlt]
  · rfl

theorem extract_insert_apart {v low width x low' width' : Nat}
    (h : low' + width' ≤ low ∨ low+width ≤ low') :
    extract (insert v low width x) low' width' = extract v low' width' := by
  apply eq_of_testBit_eq
  intro i
  rw [testBit_extract,testBit_extract,testBit_insert]
  by_cases hi : i < width'
  · rw [if_neg (by omega)]
  · simp [hi]

theorem extract_extract {v low width low' width' : Nat} (h : low' + width' ≤ width) :
    extract (extract v low width) low' width' = extract v (low+low') width' := by
  apply eq_of_testBit_eq
  intro i
  rw [testBit_extract,testBit_extract,testBit_extract,Nat.add_assoc]
  by_cases hi : i < width'
  · have hlt : low' + i < width := by omega
    simp [hlt]
  · simp [hi]

end Hqemu.Lib.Bits
