import Mathlib.Data.Nat.Bitwise

/-! The call of a helper that `op_call` builds on hosts of 32 bits. -/
namespace Hqemu.Llvm.OpCall
open Function List

/-- What `tcg-target.h` defines; `alignArgs` is `TCG_TARGET_CALL_ALIGN_ARGS`. -/
structure Host where
  wordsBigEndian : Bool
  stackGrowsUp : Bool
  alignArgs : Bool

/-- A value of 32 bits in a temp, or of 64 bits with its high half in the next one. -/
structure Arg where
  is64bit : Bool
  temp : Nat

def Arg.size (arg : Arg) : Nat := if arg.is64bit then 64 else 32

def Arg.halves (arg : Arg) : List Nat :=
  if arg.is64bit then [arg.temp,arg.temp+1] else [arg.temp]

def Arg.value (reg : Nat → BitVec 32) (arg : Arg) : Nat :=
  if arg.is64bit then (reg (arg.temp+1)).toNat <<< 32+(reg arg.temp).toNat
  else (reg arg.temp).toNat

def pair (host : Host) (temp : Nat) : List (Option Nat) :=
  if host.wordsBigEndian ≠ host.stackGrowsUp then [some (temp+1),some temp]
  else [some temp,some (temp+1)]

/-- The parameters that `tcg_gen_callN` writes, `none` for `TCG_CALL_DUMMY_ARG`. -/
def callArgs (host : Host) (realArgs : Nat) : List Arg → List (Option Nat)
  | [] => []
  | arg :: args =>
    if arg.is64bit then
      if host.alignArgs ∧ realArgs%2 = 1 then
        none :: pair host arg.temp ++ callArgs host (realArgs+3) args
      else pair host arg.temp ++ callArgs host (realArgs+2) args
    else some arg.temp :: callArgs host (realArgs+1) args

def callRets (host : Host) (ret : Arg) : List Nat :=
  if ret.is64bit then
    if host.wordsBigEndian then [ret.temp+1,ret.temp] else [ret.temp,ret.temp+1]
  else [ret.temp]

/-- The loop from the label `next`. There is no register for a dummy. -/
def packParam (reg : Nat → BitVec 32) (realSize : Nat) :
    Nat → Nat → List (Option Nat) → Option (Nat × List (Option Nat))
  | remain,tmp,some arg :: args =>
    let inData := (reg arg).toNat
    if 32 = realSize then some (inData,args)
    else
      let tmp := if remain = realSize then inData%2^realSize
        else tmp ||| inData <<< (realSize - remain)%2^realSize
      let remain := (remain+2^64 - 32)%2^64
      if 0 < remain then packParam reg realSize remain tmp args else some (tmp,args)
  | _,_,_ => none

def packParams (reg : Nat → BitVec 32) : List Nat → List (Option Nat) → Option (List Nat)
  | [],args => if args = [] then some [] else none
  | realSize :: sizes,args => do
    let (param,args) ← packParam reg realSize realSize 0 args
    return param :: (← packParams reg sizes args)

/-- `sizes` are those of the parameters of the function. -/
def params (reg : Nat → BitVec 32) (sizes : List Nat) (args : List (Option Nat)) :
    Option (List Nat) :=
  if args.length = sizes.length then
    (sizes.zip args).mapM fun (realSize,arg) => arg.map fun arg =>
      if realSize < 32 then (reg arg).toNat%2^realSize else (reg arg).toNat
  else packParams reg sizes args

/-- The outputs take the result of `size` bits in parts of `subsize` bits. -/
def splitRet (subsize : Nat) : Nat → List Nat → (Nat → BitVec 32) → Nat → BitVec 32
  | _,[],reg => reg
  | tmp,out :: outs,reg =>
    splitRet subsize (tmp >>> subsize) outs (update reg out (.ofNat 32 (tmp%2^subsize)))

def setOutputs (size result : Nat) (reg : Nat → BitVec 32) : List Nat → Nat → BitVec 32
  | [] => reg
  | [out] => update reg out (.ofNat 32 result)
  | outs => splitRet (size / outs.length) result outs reg

/-- The parameters of the call and the registers behind it. -/
def opCall (host : Host) (fn : List Nat → Nat) (args : List Arg) (ret : Option Arg)
    (reg : Nat → BitVec 32) : Option (List Nat × (Nat → BitVec 32)) :=
  (params reg (args.map Arg.size) (callArgs host 0 args)).map fun ps =>
    (ps,match ret with
      | none => reg
      | some ret => setOutputs ret.size (fn ps%2^ret.size) reg (callRets host ret))

variable {host : Host} {reg : Nat → BitVec 32}

/-- The value that the loop makes of an argument. -/
def Arg.packed (host : Host) (reg : Nat → BitVec 32) (arg : Arg) : Nat :=
  if arg.is64bit ∧ host.wordsBigEndian ≠ host.stackGrowsUp then
    (reg arg.temp).toNat <<< 32+(reg (arg.temp+1)).toNat
  else arg.value reg

theorem packParam_pair (first second : Nat) (args : List (Option Nat)) :
    packParam reg 64 64 0 (some first :: some second :: args) =
      some ((reg second).toNat <<< 32+(reg first).toNat,args) := by
  have hlow := (reg first).isLt
  have hhigh := (reg second).isLt
  have hword : (reg first).toNat%18446744073709551616 = (reg first).toNat := by omega
  have hshift : (reg second).toNat <<< 32%18446744073709551616 = (reg second).toNat <<< 32 := by
    rw [Nat.shiftLeft_eq]
    omega
  have hor := Nat.shiftLeft_add_eq_or_of_lt hlow (reg second).toNat
  simp [packParam,hword,hshift,hor,Nat.or_comm]

theorem packParam_arg (arg : Arg) (args : List (Option Nat)) :
    packParam reg arg.size arg.size 0
        ((if arg.is64bit then pair host arg.temp else [some arg.temp]) ++ args) =
      some (arg.packed host reg,args) := by
  unfold Arg.size Arg.packed Arg.value pair
  by_cases hwide : arg.is64bit = true
  · by_cases horder : host.wordsBigEndian ≠ host.stackGrowsUp <;>
      simp [hwide,horder,packParam_pair]
  · simp [hwide,packParam]

theorem length_pair (host : Host) (temp : Nat) : (pair host temp).length = 2 := by
  unfold pair
  split <;> rfl

theorem length_callArgs (args : List Arg) (realArgs : Nat) :
    args.length ≤ (callArgs host realArgs args).length := by
  induction args generalizing realArgs with
  | nil => exact Nat.zero_le _
  | cons arg args ih =>
    rw [callArgs]
    have htwo := ih (realArgs+2)
    have hthread := ih (realArgs+3)
    have hone := ih (realArgs+1)
    repeat' split
    all_goals simp only [length_append,length_cons,length_pair]
    all_goals omega

theorem callArgs_plain {args : List Arg} (realArgs : Nat)
    (hle : (callArgs host realArgs args).length ≤ args.length) :
    none ∉ callArgs host realArgs args ∧
      ((args.map Arg.size).zip (callArgs host realArgs args)).mapM (fun (realSize,arg) =>
        arg.map fun arg => if realSize < 32 then (reg arg).toNat%2^realSize else (reg arg).toNat) =
        some (args.map (Arg.packed host reg)) := by
  induction args generalizing realArgs with
  | nil => exact ⟨nofun,rfl⟩
  | cons arg args ih =>
    have htwo := @length_callArgs host args (realArgs+2)
    have hthree := @length_callArgs host args (realArgs+3)
    rw [callArgs] at hle ⊢
    split at hle
    · split at hle <;> simp only [length_append,length_cons,length_pair] at hle <;> omega
    · next h =>
      obtain ⟨hdummy,hrest⟩ := ih (realArgs+1) (by simpa using hle)
      simp [Arg.size,Arg.packed,Arg.value,h,hdummy,hrest]

theorem setOutputs_ret (ret : Arg) (result : Nat)
    (hbig : ret.is64bit = true → host.wordsBigEndian = false) :
    let after := setOutputs ret.size (result%2^ret.size) reg (callRets host ret)
    ret.value after = result%2^ret.size ∧ ∀ temp ∉ ret.halves, after temp = reg temp := by
  unfold callRets Arg.size Arg.halves Arg.value
  split
  · next hwide =>
    simp only [setOutputs,splitRet,hbig hwide,Bool.false_eq_true,if_false]
    constructor
    · simp [Nat.shiftRight_eq_div_pow,Nat.shiftLeft_eq]
      omega
    · intro temp htemp
      simp only [mem_cons,not_mem_nil,or_false,not_or] at htemp
      rw [update_of_ne htemp.2,update_of_ne htemp.1]
  · constructor
    · simp [setOutputs]
    · intro temp htemp
      exact update_of_ne (by simpa using htemp) _ _

theorem packParams_callArgs (args : List Arg) (realArgs : Nat) :
    packParams reg (args.map Arg.size) (callArgs host realArgs args) =
      if none ∈ callArgs host realArgs args then none
      else some (args.map (Arg.packed host reg)) := by
  induction args generalizing realArgs with
  | nil => rfl
  | cons arg args ih =>
    by_cases hdummy : arg.is64bit = true ∧ host.alignArgs = true ∧ realArgs%2 = 1
    · simp [callArgs,packParams,hdummy,packParam]
    · obtain ⟨count,hcount⟩ : ∃ count, callArgs host realArgs (arg :: args) =
          (if arg.is64bit then pair host arg.temp else [some arg.temp]) ++
            callArgs host count args := by
        by_cases hwide : arg.is64bit = true
        · exact ⟨realArgs+2,by simp_all [callArgs]⟩
        · exact ⟨realArgs+1,by simp [callArgs,hwide]⟩
      have hpair : none ∉ (if arg.is64bit then pair host arg.temp else [some arg.temp]) := by
        unfold pair
        split
        · split <;> simp
        · simp
      rw [hcount,map_cons,packParams,packParam_arg]
      by_cases hrest : none ∈ callArgs host count args <;> simp [ih,hrest,hpair]

theorem params_callArgs (args : List Arg) :
    params reg (args.map Arg.size) (callArgs host 0 args) =
      if none ∈ callArgs host 0 args then none else some (args.map (Arg.packed host reg)) := by
  unfold params
  split
  · next hlength =>
    obtain ⟨hdummy,hplain⟩ := callArgs_plain 0 (by simpa using hlength.le)
    rw [hplain,if_neg hdummy]
  · exact packParams_callArgs args 0

/-- Each parameter is the value of its argument, the outputs take the result, and no other
register changes. -/
def CallsRight (host : Host) (args : List Arg) (ret : Option Arg) : Prop :=
  ∀ (fn : List Nat → Nat) (reg : Nat → BitVec 32),
    ∃ after, opCall host fn args ret reg = some (args.map (Arg.value reg), after) ∧
      (∀ r ∈ ret, r.value after = fn (args.map (Arg.value reg)) % 2 ^ r.size) ∧
        ∀ temp, (∀ r ∈ ret, temp ∉ r.halves) → after temp = reg temp

/-- No dummy is written, and where there are halves the low one is written first. -/
structure LowFirst (host : Host) (args : List Arg) (ret : Option Arg) : Prop where
  dummy : none ∉ callArgs host 0 args
  args : ∀ arg ∈ args, arg.is64bit = true → host.wordsBigEndian = host.stackGrowsUp
  ret : ∀ r ∈ ret, r.is64bit = true → host.wordsBigEndian = false

def counting (temp : Nat) : BitVec 32 := .ofNat 32 temp

theorem packed_counting {arg : Arg} (h : arg.packed host counting = arg.value counting)
    (hwide : arg.is64bit = true) : host.wordsBigEndian = host.stackGrowsUp := by
  by_contra horder
  simp only [Arg.packed,Arg.value,counting,hwide,horder,ne_eq,not_false_iff,and_self,if_true,
    BitVec.toNat_ofNat,Nat.shiftLeft_eq] at h
  omega

theorem callsRight_of_lowFirst {args : List Arg} {ret : Option Arg}
    (h : LowFirst host args ret) : CallsRight host args ret := by
  intro fn reg
  have hvalues : args.map (Arg.packed host reg) = args.map (Arg.value reg) := by
    refine map_congr_left fun arg harg => ?_
    have hwide := h.args arg harg
    unfold Arg.packed
    rw [if_neg]
    exact fun hswap => hswap.2 (hwide hswap.1)
  rw [opCall,params_callArgs,if_neg h.dummy,hvalues]
  refine ⟨_,rfl,?_⟩
  cases ret with
  | none => exact ⟨nofun,fun _ _ => rfl⟩
  | some ret =>
    have hret := @setOutputs_ret host reg ret (fn (args.map (Arg.value reg))) (h.ret ret rfl)
    exact ⟨by rintro _ ⟨⟩; exact hret.1,fun temp htemp => hret.2 temp (htemp ret rfl)⟩

theorem opCall_right_iff (host : Host) (args : List Arg) (ret : Option Arg) :
    CallsRight host args ret ↔ LowFirst host args ret := by
  refine ⟨fun h => ?_,callsRight_of_lowFirst⟩
  obtain ⟨after,hcall,hret,-⟩ := h (fun _ => 1) counting
  rw [opCall,params_callArgs] at hcall
  by_cases hdummy : none ∈ callArgs host 0 args
  · rw [if_pos hdummy] at hcall
    cases hcall
  rw [if_neg hdummy] at hcall
  simp only [Option.map_some,Option.some.injEq,Prod.mk.injEq,map_inj_left] at hcall
  obtain ⟨hparams,rfl⟩ := hcall
  refine ⟨hdummy,fun arg harg => packed_counting (hparams arg harg),?_⟩
  rintro r ⟨⟩ hwide
  have hvalue := hret r rfl
  rw [← Bool.not_eq_true]
  intro hbig
  simp [callRets,setOutputs,splitRet,Arg.value,Arg.size,hwide,hbig] at hvalue

/-- On ppc the halves are swapped, and on arm an odd position is read from no register. -/
theorem opCall_swaps : (opCall ⟨true,false,true⟩ sum [⟨true,0⟩] none counting).map Prod.fst =
      some [1] ∧ Arg.value counting ⟨true,0⟩ = 2 ^ 32 ∧
    (opCall ⟨false,false,true⟩ sum [⟨false,0⟩,⟨true,1⟩] none counting).isNone := by
  decide

end Hqemu.Llvm.OpCall
