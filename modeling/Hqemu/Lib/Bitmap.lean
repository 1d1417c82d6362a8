import Mathlib.Data.Nat.Bitwise

/-! Bitmaps stored as bytes, lowest bit first. A write to a byte is described by the
bits it leaves. -/
namespace Hqemu.Lib.Bitmap

def above (start : Nat) : UInt8 := 0xff <<< UInt8.ofNat start

def below (stop : Nat) : UInt8 := ~~~above stop

def bitAt (tab : List UInt8) (i : Nat) : Bool := (tab.getD (i/8) 0).toNat.testBit (i%8)

def orByte (tab : List UInt8) (byte : Nat) (mask : UInt8) : List UInt8 :=
  tab.modify byte (· ||| mask)

def fill (tab : List UInt8) (byte : Nat) : Nat → List UInt8
  | 0 => tab
  | count+1 => fill (tab.set byte 0xff) (byte+1) count

theorem testBit_above {start i : Nat} (hstart : start < 8) (hi : i < 8) :
    (above start).toNat.testBit i = decide (start ≤ i) := by
  have hall : ∀ s j : Fin 8, (above s).toNat.testBit j = decide (s.val ≤ j.val) := by decide
  exact hall ⟨start,hstart⟩ ⟨i,hi⟩

theorem testBit_below {stop i : Nat} (hstop : stop < 8) (hi : i < 8) :
    (below stop).toNat.testBit i = decide (i < stop) := by
  have hall : ∀ s j : Fin 8, (below s).toNat.testBit j = decide (j.val < s.val) := by decide
  exact hall ⟨stop,hstop⟩ ⟨i,hi⟩

theorem testBit_ones {i : Nat} (hi : i < 8) : Nat.testBit 0xff i = true := by
  have hall : ∀ j : Fin 8, Nat.testBit 0xff j = true := by decide
  exact hall ⟨i,hi⟩

@[simp] theorem length_orByte (tab : List UInt8) (byte : Nat) (mask : UInt8) :
    (orByte tab byte mask).length = tab.length :=
  List.length_modify _ _ _

@[simp] theorem length_fill (tab : List UInt8) (byte count : Nat) :
    (fill tab byte count).length = tab.length := by
  induction count generalizing tab byte with
  | zero => rfl
  | succ count ih => rw [fill,ih,List.length_set]

theorem bitAt_orByte {tab : List UInt8} {byte i : Nat} {mask : UInt8} (hi : i/8 < tab.length) :
    bitAt (orByte tab byte mask) i =
      (bitAt tab i || decide (i/8 = byte) && mask.toNat.testBit (i%8)) := by
  unfold bitAt orByte
  rw [List.getD_eq_getElem?_getD,List.getElem?_modify,List.getD_eq_getElem?_getD,
    List.getElem?_eq_getElem hi]
  by_cases hbyte : byte = i/8
  · simp [hbyte]
  · simp [hbyte,Ne.symm hbyte]

theorem bitAt_set {tab : List UInt8} {byte i : Nat} (hi : i/8 < tab.length) :
    bitAt (tab.set byte 0xff) i = (bitAt tab i || decide (i/8 = byte)) := by
  unfold bitAt
  rw [List.getD_eq_getElem?_getD,List.getElem?_set,List.getD_eq_getElem?_getD,
    List.getElem?_eq_getElem hi]
  by_cases hbyte : byte = i/8
  · subst hbyte
    have hones := testBit_ones (Nat.mod_lt i (by decide : 0 < 8))
    simp [hi,hones]
  · simp [hbyte,Ne.symm hbyte]

theorem bitAt_fill {tab : List UInt8} {byte count i : Nat} (hi : i/8 < tab.length) :
    bitAt (fill tab byte count) i =
      (bitAt tab i || decide (byte ≤ i/8) && decide (i/8 < byte+count)) := by
  induction count generalizing tab byte with
  | zero =>
    have hempty : ¬(byte ≤ i/8 ∧ i/8 < byte+0) := by omega
    rw [fill,← Bool.decide_and,decide_eq_false hempty,Bool.or_false]
  | succ count ih =>
    rw [fill,ih (by simpa using hi),bitAt_set hi,Bool.or_assoc]
    congr 1
    rw [← Bool.decide_and,← Bool.decide_or,← Bool.decide_and,decide_eq_decide]
    omega

end Hqemu.Lib.Bitmap
