import Hqemu.Llvm.PromotedRegs

/-! The instructions emitted for each op. They leave a rotation by zero open. -/
namespace Hqemu.Llvm.PromotedRegs
open BitVec Option TcgOps

section Loose
variable {n : Nat} (u : Nat)

/-- A rotation by zero or by the width may set further bits, one by more gives anything. -/
def looseRotate (x y rotated : BitVec n) : BitVec n :=
  if y.toNat = 0 ∨ y.toNat = n then x ||| BitVec.ofNat n u
  else if y.toNat < n then rotated
  else BitVec.ofNat n u

def looseBinary : BinOp → BitVec n → BitVec n → Option (BitVec n)
  | .shl, x, y => some (if y.toNat < n then x <<< y.toNat else BitVec.ofNat n u)
  | .shr, x, y => some (if y.toNat < n then x >>> y.toNat else BitVec.ofNat n u)
  | .sar, x, y => some (if y.toNat < n then x.sshiftRight y.toNat else BitVec.ofNat n u)
  | .rotl, x, y => some (looseRotate u x y (x.rotateLeft y.toNat))
  | .rotr, x, y => some (looseRotate u x y (x.rotateRight y.toNat))
  | o, x, y => binary o x y

/-- The ops on a host that leaves open, as `u`, what a shift by the width or more yields. -/
def loose (size : Sizes) : Op → List Nat → Option (List Nat)
  | .binary w o _ _ _, [a,b] =>
    (looseBinary u o (BitVec.ofNat w.bits a) (BitVec.ofNat w.bits b)).map fun v => [v.toNat]
  | .div2 w _ _ _ _ _, [a,_,d] =>
    let x := BitVec.ofNat w.bits a
    let y := BitVec.ofNat w.bits d
    if divides x y then some [(x.sdiv y).toNat,(x.srem y).toNat] else none
  | .divu2 w _ _ _ _ _, [a,_,d] =>
    let x := BitVec.ofNat w.bits a
    let y := BitVec.ofNat w.bits d
    if y ≠ 0 then some [(x/y).toNat,(x%y).toNat] else none
  | op, vals => eval size op vals

variable {w : Width}

theorem width_sub_toNat {y : BitVec w.bits} (h : y.toNat ≤ w.bits) :
    (BitVec.ofNat w.bits w.bits - y).toNat = w.bits-y.toNat := by
  rw [toNat_sub_of_le]
  · cases w <;> rfl
  · rw [le_def]
    cases w <;> simpa [Width.bits] using h

theorem le_width_sub_toNat {y : BitVec w.bits} (h : w.bits < y.toNat) :
    w.bits ≤ (BitVec.ofNat w.bits w.bits - y).toNat := by
  rw [toNat_sub,toNat_ofNat]
  cases w <;> simp only [Width.bits] at * <;> omega

theorem rotateCode_eq (x y : BitVec w.bits) :
    rotlCode u x y = looseRotate u x y (x.rotateLeft y.toNat) ∧
      rotrCode u x y = looseRotate u x y (x.rotateRight y.toNat) := by
  unfold rotlCode rotrCode looseRotate SHL LSHR
  have hpos : 0 < w.bits := by cases w <;> decide
  by_cases hgt : w.bits < y.toNat
  · have hle := le_width_sub_toNat hgt
    simp only [show ¬ y.toNat < w.bits by omega,Nat.not_lt.mpr hle,if_false]
    simp [if_neg (show ¬(y.toNat = 0 ∨ y.toNat = w.bits) by omega)]
  · rw [width_sub_toNat (by omega)]
    by_cases hzero : y.toNat = 0
    · simp [hzero,hpos]
    by_cases hfull : y.toNat = w.bits
    · simp [hfull,hpos,BitVec.or_comm]
    have hlt : y.toNat < w.bits := by omega
    have hsub : w.bits-y.toNat < w.bits := by omega
    simp only [if_pos hlt,if_pos hsub,if_neg (not_or.mpr ⟨hzero,hfull⟩),rotateLeft_def,
      rotateRight_def,Nat.mod_eq_of_lt hlt,true_and]

theorem and_mask (k : Nat) (x : BitVec n) :
    x &&& BitVec.ofNat n (2^k-1) = (x.setWidth k).setWidth n := by
  ext i hi
  have hmask : (BitVec.ofNat n (2^k-1))[i] = decide (i < k) := by
    rw [← getLsbD_eq_getElem hi,getLsbD_ofNat,Nat.testBit_two_pow_sub_one]
    simp [hi]
  simp [hmask,getLsbD_eq_getElem hi,Bool.and_comm]

theorem unaryCode_eq (o : UnOp) (x : BitVec n) : unaryCode o x = unary o x := by
  cases o with
  | ext8u => exact and_mask 8 x
  | ext16u => exact and_mask 16 x
  | ext32u => exact and_mask 32 x
  | not => exact xor_allOnes
  | neg => exact BitVec.zero_sub x
  | ext8s | ext16s | ext32s | bswap16 | bswap32 | bswap64 => rfl

theorem joined_eq (lo hi : Nat) : joined lo hi = BitVec.ofNat 32 hi ++ BitVec.ofNat 32 lo := by
  unfold joined
  generalize BitVec.ofNat 32 hi = h
  generalize BitVec.ofNat 32 lo = l
  ext i hi
  rw [BitVec.getElem_append]
  by_cases hlt : i < 32
  · simp [hlt]
  · have hi' : i-32 < 32 := by omega
    simp [hlt,getLsbD_of_ge l i (by omega),getLsbD_eq_getElem hi']

theorem low_half (s : BitVec 64) : s.setWidth 32 = s.extractLsb' 0 32 := by
  ext i hi
  simp

theorem high_half (s : BitVec 64) : (s >>> 32).setWidth 32 = s.extractLsb' 32 32 := by
  ext i hi
  simp

variable {size : Sizes}

theorem code_unary (w : Width) (o : UnOp) (out inp a : Nat) :
    code size u (.unary w o out inp) [a] = some [(unary o (BitVec.ofNat w.bits a)).toNat] := by
  by_cases hext : w = .i64 ∧ o = .ext32u
  · obtain ⟨rfl,rfl⟩ := hext
    have hmask := unaryCode_eq .ext32u (BitVec.ofNat 64 a)
    simp only [code,hmask]
    split
    · simp [unary,Width.bits]
    · rfl
  · have hcode : code size u (.unary w o out inp) [a] =
        some [(unaryCode o (BitVec.ofNat w.bits a)).toNat] := by
      cases w
      · rfl
      · cases o <;> first | rfl | exact (hext ⟨rfl,rfl⟩).elim
    rw [hcode,unaryCode_eq]

theorem code_binary {o : BinOp} {out in1 in2 : Nat}
    (h : notImplemented (.binary w o out in1 in2) = false) (a b : Nat) :
    code size u (.binary w o out in1 in2) [a,b] =
      (looseBinary u o (BitVec.ofNat w.bits a) (BitVec.ofNat w.bits b)).map fun v => [v.toNat] := by
  have hsame : binaryCode u o (BitVec.ofNat w.bits a) (BitVec.ofNat w.bits b) =
      looseBinary u o (BitVec.ofNat w.bits a) (BitVec.ofNat w.bits b) := by
    cases o with
    | rotl => exact congrArg some (rotateCode_eq u _ _).1
    | rotr => exact congrArg some (rotateCode_eq u _ _).2
    | andc => simp [binaryCode,looseBinary,binary]
    | orc | eqv | nand | nor => cases w <;> cases h
    | add | sub | mul | div | divu | rem | remu | and | or | xor | shl | shr | sar => rfl
  simp [code,hsame]

theorem code_eq_loose {op : Op} (h : notImplemented op = false) (vals : List Nat) :
    code size u op vals = loose u size op vals := by
  cases op with
  | mov w out inp => rcases vals with _ | ⟨a,_ | ⟨b,l⟩⟩ <;> rfl
  | movi w out c => rcases vals with _ | ⟨a,l⟩ <;> rfl
  | setcond w cond out in1 in2 => rcases vals with _ | ⟨a,_ | ⟨b,_ | ⟨c,l⟩⟩⟩ <;> rfl
  | unary w o out inp =>
    rcases vals with _ | ⟨a,_ | ⟨b,l⟩⟩
    · cases w <;> cases o <;> rfl
    · exact code_unary u w o out inp a
    · cases w <;> cases o <;> rfl
  | binary w o out in1 in2 =>
    rcases vals with _ | ⟨a,_ | ⟨b,_ | ⟨c,l⟩⟩⟩
    · rfl
    · rfl
    · exact code_binary u h a b
    · rfl
  | div2 w out1 out2 in1 in2 in3 =>
    rcases vals with _ | ⟨a,_ | ⟨b,_ | ⟨c,_ | ⟨d,l⟩⟩⟩⟩
    · rfl
    · rfl
    · rfl
    · simp only [code,loose,SDIV,SREM]
      split <;> split <;> simp_all
    · rfl
  | divu2 w out1 out2 in1 in2 in3 =>
    rcases vals with _ | ⟨a,_ | ⟨b,_ | ⟨c,_ | ⟨d,l⟩⟩⟩⟩
    · rfl
    · rfl
    · rfl
    · simp only [code,loose,UDIV,UREM]
      split <;> split <;> simp_all
    · rfl
  | add2 out1 out2 in1 in2 in3 in4 | sub2 out1 out2 in1 in2 in3 in4 =>
    rcases vals with _ | ⟨a,_ | ⟨b,_ | ⟨c,_ | ⟨d,_ | ⟨e,l⟩⟩⟩⟩⟩
    · rfl
    · rfl
    · rfl
    · rfl
    · simp only [code,loose,eval,joined_eq,high_half]
      rw [low_half]
    · rfl
  | mulu2 out1 out2 in1 in2 =>
    rcases vals with _ | ⟨a,_ | ⟨b,_ | ⟨c,l⟩⟩⟩
    · rfl
    · rfl
    · simp only [code,loose,eval,high_half]
      rw [low_half]
    · rfl
  | setcond2 cond out in1 in2 in3 in4 =>
    rcases vals with _ | ⟨a,_ | ⟨b,_ | ⟨c,_ | ⟨d,_ | ⟨e,l⟩⟩⟩⟩⟩
    · rfl
    · rfl
    · rfl
    · rfl
    · simp [code,loose,eval,joined_eq]
    · rfl

def ZeroRotate : Op → List Nat → Prop
  | .binary w .rotl _ _ _, [_,b] => BitVec.ofNat w.bits b = 0
  | .binary w .rotr _ _ _, [_,b] => BitVec.ofNat w.bits b = 0
  | _, _ => False

theorem looseRotate_of_ne {x y rotated : BitVec n} (hlt : y.toNat < n) (hne : y ≠ 0) :
    looseRotate u x y rotated = rotated := by
  have hpos : y.toNat ≠ 0 := fun h => hne (eq_of_toNat_eq (by simpa using h))
  rw [looseRotate,if_neg (by omega),if_pos hlt]

theorem looseBinary_eq {o : BinOp} {x y v : BitVec n} (h : binary o x y = some v)
    (hz : o = .rotl ∨ o = .rotr → y ≠ 0) : looseBinary u o x y = some v := by
  cases o with
  | shl | shr | sar =>
    simp only [binary,ite_none_right_eq_some,some.injEq] at h
    simp only [looseBinary]
    rw [if_pos h.1,h.2]
  | rotl =>
    simp only [binary,ite_none_right_eq_some,some.injEq] at h
    simp only [looseBinary]
    rw [looseRotate_of_ne u h.1 (hz (.inl rfl)),h.2]
  | rotr =>
    simp only [binary,ite_none_right_eq_some,some.injEq] at h
    simp only [looseBinary]
    rw [looseRotate_of_ne u h.1 (hz (.inr rfl)),h.2]
  | add | sub | mul | div | divu | rem | remu | and | or | xor | andc | orc | eqv | nand | nor =>
    exact h

theorem loose_eq_eval {op : Op} {vals res : List Nat} (h : eval size op vals = some res)
    (hz : ¬ ZeroRotate op vals) : loose u size op vals = some res := by
  cases op with
  | binary w o out in1 in2 =>
    rcases vals with _ | ⟨a,_ | ⟨b,_ | ⟨c,l⟩⟩⟩
    · cases h
    · cases h
    · simp only [eval,map_eq_some_iff] at h
      obtain ⟨v,hv,rfl⟩ := h
      have hne : o = .rotl ∨ o = .rotr → BitVec.ofNat w.bits b ≠ 0 := by
        rintro (rfl | rfl) <;> exact hz
      simp [loose,looseBinary_eq u hv hne]
    · cases h
  | div2 w out1 out2 in1 in2 in3 | divu2 w out1 out2 in1 in2 in3 =>
    rcases vals with _ | ⟨a,_ | ⟨b,_ | ⟨c,_ | ⟨d,l⟩⟩⟩⟩
    · cases h
    · cases h
    · cases h
    · simp only [eval,ite_none_right_eq_some] at h
      simp only [loose]
      rw [if_pos h.1.2]
      exact h.2
    · cases h
  | mov | movi | setcond | unary | add2 | sub2 | mulu2 | setcond2 => exact h

end Loose

end Hqemu.Llvm.PromotedRegs
