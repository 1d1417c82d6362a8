import Mathlib.Tactic.IntervalCases
import Mathlib.Data.Int.Order.Lemmas

/-! The guest's loads and stores in user emulation, with the guest base in the index of a
`getelementptr`. -/
namespace Hqemu.Llvm.GuestBase

open BitVec

inductive Host where
  | reg32
  | reg64
deriving DecidableEq, Repr

def Host.bits : Host → Nat
  | .reg32 => 32
  | .reg64 => 64

def ptrTy : Nat → Option Nat
  | 2 => some 4
  | 3 => some 8
  | 0 => some 1
  | 1 => some 2
  | _ => none

/-- The pointer made from the guest's address: `inttoptr`, and a `getelementptr` with an index
of type `i32` behind it. -/
structure Pointer where
  elementSize : Nat
  index : Option (BitVec 32)
deriving DecidableEq, Repr

section

variable (host : Host) {targetLongBits : Nat}

/-- `inttoptr` extends with zeros; the index of a `getelementptr` is signed. -/
def Pointer.address (ptr : Pointer) (base : BitVec targetLongBits) : BitVec host.bits :=
  match ptr.index with
  | none => base.setWidth host.bits
  | some index =>
    base.setWidth host.bits + index.signExtend host.bits * BitVec.ofNat host.bits ptr.elementSize

def addr (elementSize : Nat) (offset : BitVec host.bits) : Pointer :=
  ⟨elementSize,some (offset.setWidth 32)⟩

def itp (elementSize : Nat) : Pointer := ⟨elementSize,none⟩

/-- The pointer of the volatile access that is emitted; `none` is `IRError`. -/
def qemuAccess (offset : BitVec host.bits) (sizeop : Nat) : Option Pointer := do
  let elementSize ← ptrTy sizeop
  let offset := offset.sshiftRight sizeop
  if offset ≠ 0 then return addr host elementSize offset
  else return itp elementSize

def qemuLoad (offset : BitVec host.bits) (sizeop : Nat) : Option Pointer :=
  qemuAccess host offset sizeop

def qemuStore (offset : BitVec host.bits) (sizeop : Nat) : Option Pointer :=
  qemuAccess host offset sizeop

def g2h (guestBase : BitVec host.bits) (x : BitVec targetLongBits) : BitVec host.bits :=
  x.setWidth host.bits + guestBase

def hostPageAlign (pageBits : Nat) (address : BitVec host.bits) : BitVec host.bits :=
  let low := BitVec.ofNat host.bits (2^pageBits-1)
  (address+low) &&& ~~~low

/-- The base is a multiple of the access size, and in its units it fits a signed 32-bit
index. -/
def Reaches (guestBase : BitVec host.bits) (sizeop : Nat) : Prop :=
  (2^sizeop : Int) ∣ guestBase.toInt ∧
    -2^(31+sizeop) ≤ guestBase.toInt ∧ guestBase.toInt < 2^(31+sizeop)

instance (guestBase : BitVec host.bits) (sizeop : Nat) :
    Decidable (Reaches host guestBase sizeop) :=
  inferInstanceAs (Decidable (_ ∧ _))

def scaled (offset : BitVec host.bits) (sizeop : Nat) : BitVec host.bits :=
  ((offset.sshiftRight sizeop).setWidth 32).signExtend host.bits *
    BitVec.ofNat host.bits (2^sizeop)

end

section

variable {host : Host} {targetLongBits sizeop : Nat}

theorem ptrTy_eq (h : sizeop < 4) : ptrTy sizeop = some (2^sizeop) := by
  interval_cases sizeop <;> rfl

variable (offset : BitVec host.bits)

theorem address_qemuAccess (h : sizeop < 4) (x : BitVec targetLongBits) :
    (qemuAccess host offset sizeop).map (·.address host x) =
      some (x.setWidth host.bits + scaled host offset sizeop) := by
  simp only [qemuAccess,ptrTy_eq h,Option.bind_eq_bind,Option.bind_some,scaled]
  split
  · rfl
  rename_i hz
  rw [ne_eq,Decidable.not_not] at hz
  have hextend : signExtend host.bits 0#32 = BitVec.ofNat host.bits 0 := by cases host <;> rfl
  simp [hz,hextend,itp,Pointer.address]

theorem toInt_scaled (h : sizeop < 4) :
    (scaled host offset sizeop).toInt =
      ((offset.toInt/2^sizeop).bmod (2^32) * 2^sizeop).bmod (2^host.bits) := by
  have hbits : 32 ≤ host.bits := by cases host <;> decide
  have hshift : (offset.sshiftRight sizeop).toInt = offset.toInt/2^sizeop := by
    rw [toInt_sshiftRight,Int.shiftRight_eq_div_pow,Nat.cast_pow,Nat.cast_ofNat]
  have hindex : ((offset.sshiftRight sizeop).setWidth 32).toInt =
      (offset.toInt/2^sizeop).bmod (2^32) := by
    rw [← hshift,toInt_setWidth,toInt_eq_toNat_bmod (offset.sshiftRight sizeop),
      Int.bmod_bmod_of_dvd (pow_dvd_pow 2 hbits)]
  have hsize : (BitVec.ofNat host.bits (2^sizeop)).toInt = 2^sizeop := by
    cases host <;> interval_cases sizeop <;> rfl
  rw [scaled,toInt_mul,toInt_signExtend_of_le hbits,hindex,hsize]

theorem scaled_eq_iff (h : sizeop < 4) :
    scaled host offset sizeop = offset ↔ Reaches host offset sizeop := by
  have hlow := le_toInt offset
  have hhi := @toInt_lt _ offset
  rw [← toInt_inj,toInt_scaled offset h,Reaches]
  cases host with
  | reg32 | reg64 =>
    simp only [Host.bits] at *
    interval_cases sizeop <;> simp only [Int.bmod] <;> omega

end

/-- Loads and stores reach the guest's memory exactly when the base, in units of the access,
fits the index. -/
theorem address_eq_g2h_iff (host : Host) {targetLongBits : Nat} (guestBase : BitVec host.bits)
    (sizeop : Nat) (hsize : sizeop < 4) (x : BitVec targetLongBits) :
    ((qemuLoad host guestBase sizeop).map (·.address host x) = some (g2h host guestBase x) ↔
      Reaches host guestBase sizeop) ∧
    ((qemuStore host guestBase sizeop).map (·.address host x) = some (g2h host guestBase x) ↔
      Reaches host guestBase sizeop) := by
  have hload : (qemuLoad host guestBase sizeop).map (·.address host x) =
      some (g2h host guestBase x) ↔ Reaches host guestBase sizeop := by
    rw [qemuLoad,address_qemuAccess guestBase hsize,g2h,Option.some_inj,BitVec.add_right_inj]
    exact scaled_eq_iff guestBase hsize
  exact ⟨hload,hload⟩

abbrev word (value : Nat) : BitVec Host.reg64.bits :=
  BitVec.ofNat Host.reg64.bits value

theorem address_eq_g2h_iff_word :
    (qemuLoad .reg64 (word 0x10000) 2).map (·.address .reg64 0x8000#32) =
        some (g2h .reg64 (word 0x10000) 0x8000#32) ∧
      (qemuStore .reg64 (word 0x10000) 2).map (·.address .reg64 0x8000#32) =
        some (g2h .reg64 (word 0x10000) 0x8000#32) :=
  have h := address_eq_g2h_iff .reg64 (word 0x10000) 2 (by decide) 0x8000#32
  ⟨h.1.mpr (by decide),h.2.mpr (by decide)⟩

/-- With the base at 4 GiB a byte is read where the guest's address says, and with bit 31 set
below the guest's memory. Both bases are whole pages. -/
theorem base_lost :
    hostPageAlign .reg64 12 (word 0x100000000) = word 0x100000000 ∧
    (qemuLoad .reg64 (word 0x100000000) 0).map (·.address .reg64 0x8000#32) = some (word 0x8000) ∧
    g2h .reg64 (word 0x100000000) 0x8000#32 = word 0x100008000 ∧
    hostPageAlign .reg64 12 (word 0x80000000) = word 0x80000000 ∧
    (qemuStore .reg64 (word 0x80000000) 0).map (·.address .reg64 0x8000#32) =
      some (word 0xffffffff80008000) ∧
    g2h .reg64 (word 0x80000000) 0x8000#32 = word 0x80008000 := by
  decide

end Hqemu.Llvm.GuestBase
