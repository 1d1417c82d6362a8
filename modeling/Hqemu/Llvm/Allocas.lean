import Hqemu.Llvm.Deferred
import Mathlib.Data.List.Dedup
import Mathlib.Data.List.Sort

/-! The code the state mapping pass produces: accesses to allocas, and copies to and from CPUState.
-/
namespace Hqemu.Llvm.Allocas
open Nat StateIr
open Lib.Bits (extract insert)

structure StateInfo where
  isAligned : Bool
  off : Nat
  size : Nat
deriving DecidableEq, Repr

/-- The first access fixes the range; a later one at another offset or of another size makes
the state unaligned. -/
def StateInfo.setState (info : Option StateInfo) (a : Access) : StateInfo :=
  match info with
  | none => ⟨true,a.diff,a.bits⟩
  | some i => if a.diff ≠ i.off ∨ a.bits ≠ i.size then { i with isAligned := false } else i

def access : Op → Option Access
  | .load a => some a
  | .store a => some a
  | .call _ _ => none

variable {ctx : Context}

def accesses (F : IrFunction ctx) : List Access := (F.blocks.flatMap Block.body).filterMap access

def states (F : IrFunction ctx) : List Nat :=
  ((accesses F).map Access.state).dedup.insertionSort (· ≤ ·)

def StateInfo.widen (size : Nat) (info : StateInfo) : StateInfo :=
  if info.isAligned then info else { info with off := 0, size := size }

/-- `AnalyzeStates`. -/
def stateInfo (F : IrFunction ctx) (s : Nat) : StateInfo :=
  let seen := (accesses F).filter (fun a => a.state = s)
  match seen.foldl (fun info a => some (StateInfo.setState info a)) none with
  | none => ⟨true,0,0⟩
  | some info => info.widen (ctx.size s)

def loadUnalignedState (v size diff bits : Nat) : Nat :=
  if size = bits then v else (v >>> diff) % 2^bits

def higherPart (v size diff bits sub : Nat) : Nat :=
  if diff + bits = size then sub else ((v >>> (diff+bits)) <<< bits) ||| sub

def storeUnalignedState (v size diff bits sub : Nat) : Nat :=
  if size = bits then sub
  else if diff = 0 then higherPart v size diff bits sub
  else (higherPart v size diff bits sub <<< diff) ||| (v%2^diff)

inductive Inst
  /-- `CopyState` from CPUState to the alloca. -/
  | copyIn (s : Nat)
  /-- `CopyState` from the alloca to CPUState. -/
  | copyOut (s : Nat)
  | load (a : Access)
  | store (a : Access)
  /-- An instruction the pass leaves as it is. -/
  | keep (op : Op)
deriving DecidableEq, Repr

structure Frame where
  mem : Mem
  alloca : Nat → Nat

def Frame.copyIn (info : Nat → StateInfo) (f : Frame) (s : Nat) : Frame :=
  let v := extract (f.mem s) (info s).off (info s).size
  { f with alloca := Function.update f.alloca s v }

def Frame.copyOut (info : Nat → StateInfo) (f : Frame) (s : Nat) : Frame :=
  let v := insert (f.mem s) (info s).off (info s).size (f.alloca s)
  { f with mem := Function.update f.mem s v }

def Frame.load (info : Nat → StateInfo) (f : Frame) (a : Access) : Nat :=
  if (info a.state).isAligned then f.alloca a.state
  else loadUnalignedState (f.alloca a.state) (info a.state).size a.diff a.bits

def Frame.store (info : Nat → StateInfo) (f : Frame) (a : Access) (v : Nat) : Frame :=
  let sub := v%2^a.bits
  let v := if (info a.state).isAligned then sub
    else storeUnalignedState (f.alloca a.state) (info a.state).size a.diff a.bits sub
  { f with alloca := Function.update f.alloca a.state v }

def step (ctx : Context) (info : Nat → StateInfo) (env : Env) (inst : Inst) (f : Frame)
    (h : List Event) : Frame × List Event :=
  match inst with
  | .copyIn s => (f.copyIn info s,h)
  | .copyOut s => (f.copyOut info s,h)
  | .load a => (f,.loaded a (f.load info a) :: h)
  | .store a => (f.store info a (env.value a h),.stored a (env.value a h) :: h)
  | .keep op =>
    let r := StateIr.step ctx env op f.mem h
    ({ f with mem := r.1 },r.2)

def exec (ctx : Context) (info : Nat → StateInfo) (env : Env) :
    List Inst → Frame → List Event → Frame × List Event
  | [], f, h => (f,h)
  | inst :: insts, f, h =>
    let r := step ctx info env inst f h
    exec ctx info env insts r.1 r.2

variable {v size diff bits : Nat}

open Lib.Bits

theorem loadUnalignedState_eq (hv : v < 2^size) (hin : diff+bits ≤ size) :
    loadUnalignedState v size diff bits = extract v diff bits := by
  unfold loadUnalignedState extract
  split
  · rename_i heq
    have hdiff : diff = 0 := by omega
    subst hdiff heq
    rw [shiftRight_zero,mod_eq_of_lt hv]
  · rfl

theorem testBit_higherPart {sub : Nat} (hv : v < 2^size) (hsub : sub < 2^bits) (j : Nat) :
    (higherPart v size diff bits sub).testBit j =
      if j < bits then sub.testBit j else v.testBit (diff+j) := by
  unfold higherPart
  by_cases hj : j < bits
  · by_cases hend : diff+bits = size
    · simp [hend,hj]
    · have hnot : ¬ bits ≤ j := by omega
      simp [hend,hj,testBit_or,testBit_shiftLeft,hnot]
  · have hsub0 := testBit_of_lt hsub (Nat.not_lt.mp hj)
    by_cases hend : diff+bits = size
    · have hv0 : v.testBit (diff+j) = false := testBit_of_lt hv (by omega)
      simp [hend,hj,hsub0,hv0]
    · have hadd : diff+bits+(j-bits) = diff+j := by omega
      have hle : bits ≤ j := by omega
      simp [hend,hj,hsub0,testBit_or,testBit_shiftLeft,testBit_shiftRight,hadd,hle]

theorem storeUnalignedState_eq {sub : Nat} (hv : v < 2^size) (hsub : sub < 2^bits)
    (hin : diff+bits ≤ size) :
    storeUnalignedState v size diff bits sub = insert v diff bits sub := by
  apply eq_of_testBit_eq
  intro i
  rw [testBit_insert]
  unfold storeUnalignedState
  by_cases hsize : size = bits
  · have hdiff : diff = 0 := by omega
    subst hdiff hsize
    by_cases hi : i < size
    · simp [hi]
    · simp [hi,testBit_of_lt hv (Nat.not_lt.mp hi),testBit_of_lt hsub (Nat.not_lt.mp hi)]
  · by_cases hdiff : diff = 0
    · subst hdiff
      simp [hsize,testBit_higherPart hv hsub]
    · by_cases hi : diff ≤ i
      · have hadd : diff+(i-diff) = i := by omega
        have hmod : ¬ i < diff := by omega
        have hiff : i-diff < bits ↔ i < diff+bits := by omega
        simp [hsize,hdiff,testBit_or,testBit_shiftLeft,testBit_higherPart hv hsub,
          testBit_mod_two_pow,hi,hmod,hadd,hiff]
      · have hlt : i < diff := by omega
        simp [hsize,hdiff,testBit_or,testBit_shiftLeft,testBit_mod_two_pow,hi,hlt]

inductive Endian
  | little
  | big
deriving DecidableEq, Repr

/-- `NEED_BSWAP` is defined when the byte orders differ. -/
def bitOffset (host guest : Endian) (size diff bits : Nat) : Nat :=
  if host = guest then diff else size - (diff+bits)

def loadPart (host guest : Endian) (size v diff bits : Nat) : Nat :=
  loadUnalignedState v size (bitOffset host guest size diff bits) bits

def storePart (host guest : Endian) (size v diff bits sub : Nat) : Nat :=
  storeUnalignedState v size (bitOffset host guest size diff bits) bits sub

def Endian.place (host : Endian) (bytes i : Nat) : Nat :=
  match host with
  | .little => i
  | .big => bytes-1-i

def Endian.byte (host : Endian) (bytes v i : Nat) : Nat := extract v (8*host.place bytes i) 8

def Bytewise (host guest : Endian) (bytes off count : Nat) : Prop :=
  ∀ v < 2^(8*bytes), ∀ sub < 2^(8*count),
    (∀ i < count, host.byte count (loadPart host guest (8*bytes) v (8*off) (8*count)) i =
      host.byte bytes v (off+i)) ∧
    ∀ i < bytes, host.byte bytes (storePart host guest (8*bytes) v (8*off) (8*count) sub) i =
      if off ≤ i ∧ i < off + count then host.byte count sub (i-off) else host.byte bytes v i

section

variable {host guest : Endian} {sub bytes off count i : Nat}

theorem bitOffset_le (hin : diff+bits ≤ size) :
    bitOffset host guest size diff bits + bits ≤ size := by
  unfold bitOffset
  split <;> omega

theorem loadPart_eq (hv : v < 2^size) (hin : diff+bits ≤ size) :
    loadPart host guest size v diff bits = extract v (bitOffset host guest size diff bits) bits :=
  loadUnalignedState_eq hv (bitOffset_le hin)

theorem storePart_eq (hv : v < 2^size) (hsub : sub < 2^bits) (hin : diff+bits ≤ size) :
    storePart host guest size v diff bits sub =
      insert v (bitOffset host guest size diff bits) bits sub :=
  storeUnalignedState_eq hv hsub (bitOffset_le hin)

theorem storePart_lt (hv : v < 2^size) (hsub : sub < 2^bits) (hin : diff+bits ≤ size) :
    storePart host guest size v diff bits sub < 2^size := by
  rw [storePart_eq hv hsub hin]
  exact insert_lt hv (bitOffset_le hin)

theorem loadPart_storePart (hv : v < 2^size) (hsub : sub < 2^bits) (hin : diff+bits ≤ size) :
    loadPart host guest size (storePart host guest size v diff bits sub) diff bits = sub := by
  rw [loadPart_eq (storePart_lt hv hsub hin) hin,storePart_eq hv hsub hin,extract_insert _ _ hsub]

variable (hin : off + count ≤ bytes)

include hin

theorem byte_loadPart (hv : v < 2^(8*bytes)) (hi : i < count) :
    host.byte count (loadPart host guest (8*bytes) v (8*off) (8*count)) i =
      extract v (bitOffset host guest (8*bytes) (8*off) (8*count) + 8*host.place count i) 8 := by
  have hplace : host.place count i < count := by unfold Endian.place; split <;> omega
  unfold Endian.byte
  rw [loadPart_eq hv (by omega),extract_extract (by omega)]

theorem bytewise_of_guest (h : guest = .little ∨ 2*off+count = bytes) :
    Bytewise host guest bytes off count := by
  have hload (v : Nat) (hv : v < 2^(8*bytes)) (i : Nat) (hi : i < count) :
      host.byte count (loadPart host guest (8*bytes) v (8*off) (8*count)) i =
        host.byte bytes v (off+i) := by
    rw [byte_loadPart hin hv hi]
    unfold Endian.byte bitOffset Endian.place
    congr 1
    cases host <;> cases guest <;> simp_all <;> omega
  have hin8 : 8*off+8*count ≤ 8*bytes := by omega
  refine fun v hv sub hsub => ⟨hload v hv,fun i hi => ?_⟩
  split
  · rename_i hmem
    have hpart := hload (storePart host guest _ v _ _ sub) (storePart_lt hv hsub hin8) (i-off)
      (by omega)
    rwa [loadPart_storePart hv hsub hin8,Nat.add_sub_cancel' hmem.1,eq_comm] at hpart
  · unfold Endian.byte
    rw [storePart_eq hv hsub hin8]
    refine extract_insert_apart ?_
    unfold bitOffset Endian.place
    cases host <;> cases guest <;> simp_all <;> omega

theorem guest_of_bytewise (hcount : 0 < count) (h : Bytewise host guest bytes off count) :
    guest = .little ∨ 2*off+count = bytes := by
  have hv : 2^(8*off) < 2^(8*bytes) := Nat.pow_lt_pow_right (by decide) (by omega)
  have hbit {i : Nat} (hi : i < count) :
      8*off = bitOffset host guest (8*bytes) (8*off) (8*count) + 8*host.place count i ↔
        8*off = 8*host.place bytes (off+i) := by
    have hload := (h _ hv 0 (Nat.two_pow_pos _)).1 i hi
    rw [byte_loadPart hin hv hi] at hload
    have htest := congrArg (testBit · 0) hload
    simp only [Endian.byte,testBit_extract,testBit_two_pow,Nat.add_zero] at htest
    simpa using htest
  have hfirst := hbit hcount
  have hlast := hbit (Nat.sub_one_lt_of_lt hcount)
  cases guest with
  | little => exact .inl rfl
  | big =>
    right
    cases host <;> simp only [bitOffset,Endian.place,reduceCtorEq,if_true,if_false] at hfirst hlast
        <;>
      omega

end

/-- What is stored is loaded again, and nothing else changes. For a big-endian guest the bytes are
counted from the wrong end. -/
theorem unalignedState_lens_iff (host guest : Endian) :
    (∀ size off bits v sub, 8 * off + bits ≤ size → v < 2 ^ size → sub < 2 ^ bits →
      let stored := storePart host guest size v (8 * off) bits sub
      loadPart host guest size stored (8 * off) bits = sub ∧
      ∀ off' bits', 8 * off' + bits' ≤ size →
        8 * off' + bits' ≤ 8 * off ∨ 8 * off + bits ≤ 8 * off' →
        loadPart host guest size stored (8 * off') bits' =
          loadPart host guest size v (8 * off') bits') ∧
    ∀ bytes off count, 0 < count → off + count ≤ bytes →
      (Bytewise host guest bytes off count ↔ guest = .little ∨ 2 * off + count = bytes) := by
  refine ⟨fun size off bits v sub hin hv hsub => ⟨loadPart_storePart hv hsub hin,
    fun off' bits' hin' hapart => ?_⟩,fun bytes off count hcount hin =>
      ⟨guest_of_bytewise hin hcount,bytewise_of_guest hin⟩⟩
  rw [loadPart_eq (storePart_lt hv hsub hin) hin',loadPart_eq hv hin',storePart_eq hv hsub hin]
  refine extract_insert_apart ?_
  unfold bitOffset
  split <;> omega

/-- The first byte of a 32-bit state, for a big-endian guest on x86: the last one is loaded. -/
theorem part_of_wrong_end : ¬ Bytewise .little .big 4 0 1 :=
  fun h => absurd ((h 1 (by decide) 0 (by decide)).1 0 (by decide)) (by decide)

def Fits (ctx : Context) (info : StateInfo) (a : Access) : Prop :=
  if info.isAligned then info.off = a.diff ∧ info.size = a.bits
  else info.off = 0 ∧ info.size = ctx.size a.state

theorem foldl_setState (seen : List Access) (start : StateInfo) :
    ∃ info, seen.foldl (fun info a => some (StateInfo.setState info a)) (some start) = some info ∧
      (info.isAligned = true → info = start ∧ ∀ a ∈ seen, start.off = a.diff ∧ start.size =
          a.bits) := by
  induction seen generalizing start with
  | nil => exact ⟨start,rfl,fun _ => ⟨rfl,by simp⟩⟩
  | cons a seen ih =>
    obtain ⟨info,hfold,hinfo⟩ := ih (StateInfo.setState (some start) a)
    refine ⟨info,hfold,fun halign => ?_⟩
    obtain ⟨heq,hseen⟩ := hinfo halign
    by_cases hne : a.diff ≠ start.off ∨ a.bits ≠ start.size
    · rw [heq] at halign
      simp [StateInfo.setState,hne] at halign
    · have hkeep : StateInfo.setState (some start) a = start := by
        simp [StateInfo.setState,if_neg hne]
      rw [hkeep] at heq hseen
      refine ⟨heq,?_⟩
      intro a' ha'
      rcases List.mem_cons.mp ha' with rfl | hmem
      · push Not at hne
        exact ⟨hne.1.symm,hne.2.symm⟩
      · exact hseen a' hmem

variable (F : IrFunction ctx) {a : Access}

theorem stateInfo_fits (ha : a ∈ accesses F) : Fits ctx (stateInfo F a.state) a := by
  have hmem : a ∈ (accesses F).filter (fun a' => a'.state = a.state) := by simp [ha]
  unfold stateInfo
  dsimp only
  generalize (accesses F).filter (fun a' => a'.state = a.state) = seen at hmem
  cases seen with
  | nil => simp at hmem
  | cons first seen =>
    obtain ⟨info,hfold,hinfo⟩ := foldl_setState seen (StateInfo.setState none first)
    rw [List.foldl_cons,hfold]
    unfold Fits StateInfo.widen
    cases halign : info.isAligned with
    | false => simp [halign]
    | true =>
      obtain ⟨rfl,hseen⟩ := hinfo halign
      rcases List.mem_cons.mp hmem with rfl | hrest
      · simp [StateInfo.setState]
      · simpa [halign] using hseen a hrest

def Within (info : StateInfo) (base cur : Nat) : Prop :=
  ∃ v, cur = insert base info.off info.size v

def Holds (info : StateInfo) (alloca base cur : Nat) : Prop :=
  cur = insert base info.off info.size alloca ∧ alloca < 2^info.size

theorem Within.refl (info : StateInfo) (base : Nat) : Within info base base :=
  ⟨_,(insert_extract base info.off info.size).symm⟩

theorem Holds.within {info : StateInfo} {alloca base cur : Nat} (h : Holds info alloca base cur) :
    Within info base cur := ⟨alloca,h.1⟩

theorem holds_extract (info : StateInfo) (base : Nat) :
    Holds info (extract base info.off info.size) base base :=
  ⟨(insert_extract _ _ _).symm,extract_lt _ _ _⟩

section accesses
variable {info : Nat → StateInfo} {a : Access} {base cur : Nat}

variable (f : Frame)

theorem Frame.load_eq (hfit : Fits ctx (info a.state) a) (hin : a.diff+a.bits ≤ ctx.size a.state)
    (h : Holds (info a.state) (f.alloca a.state) base cur) :
    f.load info a = extract cur a.diff a.bits := by
  unfold Frame.load
  unfold Fits at hfit
  rw [h.1]
  cases halign : (info a.state).isAligned with
  | true =>
    simp only [halign,if_true] at hfit ⊢
    have hlt := h.2
    rw [hfit.2] at hlt
    rw [hfit.1,hfit.2,extract_insert base a.diff hlt]
  | false =>
    simp only [halign,Bool.false_eq_true,if_false] at hfit ⊢
    have hlt := h.2
    rw [hfit.2] at hlt
    rw [hfit.1,hfit.2,loadUnalignedState_eq hlt hin,extract_insert_zero hin]

theorem Frame.store_alloca (info : Nat → StateInfo) (a : Access) (v : Nat) :
    (f.store info a v).alloca a.state = if (info a.state).isAligned then v % 2^a.bits
      else storeUnalignedState (f.alloca a.state) (info a.state).size a.diff a.bits
        (v%2^a.bits) := by
  simp [Frame.store]

theorem Frame.holds_store_aligned (hfit : Fits ctx (info a.state) a)
    (halign : (info a.state).isAligned = true) (h : Within (info a.state) base cur) (v : Nat) :
    Holds (info a.state) ((f.store info a v).alloca a.state) base (insert cur a.diff a.bits v) := by
  simp only [Fits,halign,if_true] at hfit
  rw [Frame.store_alloca,if_pos halign]
  obtain ⟨x,rfl⟩ := h
  constructor
  · rw [hfit.1,hfit.2,insert_insert,insert_mod]
  · rw [hfit.2]
    exact mod_lt _ (Nat.two_pow_pos _)

theorem Frame.holds_store (hfit : Fits ctx (info a.state) a)
    (hin : a.diff+a.bits ≤ ctx.size a.state)
    (h : Holds (info a.state) (f.alloca a.state) base cur) (v : Nat) :
    Holds (info a.state) ((f.store info a v).alloca a.state) base (insert cur a.diff a.bits v) := by
  cases halign : (info a.state).isAligned with
  | true => exact f.holds_store_aligned hfit halign h.within v
  | false =>
    simp only [Fits,halign,Bool.false_eq_true,if_false] at hfit
    have hlt := h.2
    rw [hfit.2] at hlt
    have hsub : v%2^a.bits < 2^a.bits := mod_lt _ (Nat.two_pow_pos _)
    rw [Frame.store_alloca,if_neg (by simp [halign]),h.1]
    unfold Holds
    rw [hfit.1,hfit.2,storeUnalignedState_eq hlt hsub hin,insert_insert_zero hin,insert_mod]
    exact ⟨rfl,insert_lt hlt hin⟩

end accesses

def Frame.copyIns (info : Nat → StateInfo) (f : Frame) (l : List Nat) : Frame :=
  { f with alloca := fun s =>
      if s ∈ l then extract (f.mem s) (info s).off (info s).size else f.alloca s }

def Frame.copyOuts (info : Nat → StateInfo) (f : Frame) (l : List Nat) : Frame :=
  { f with mem := fun s =>
      if s ∈ l then insert (f.mem s) (info s).off (info s).size (f.alloca s) else f.mem s }

variable (info : Nat → StateInfo)

variable (f : Frame)

theorem Frame.copyIns_cons (s : Nat) (l : List Nat) :
    (f.copyIn info s).copyIns info l = f.copyIns info (s :: l) := by
  unfold Frame.copyIns Frame.copyIn
  congr 1
  funext s'
  by_cases hs : s' = s
  · subst hs
    simp
  · simp [hs]

theorem Frame.copyOuts_cons (s : Nat) (l : List Nat) :
    (f.copyOut info s).copyOuts info l = f.copyOuts info (s :: l) := by
  unfold Frame.copyOuts Frame.copyOut
  congr 1
  funext s'
  by_cases hs : s' = s
  · subst hs
    simp [insert_insert]
  · simp [hs]

variable (env : Env)

theorem exec_copyIns (l : List Nat) (rest : List Inst) (f : Frame) (h : List Event) :
    exec ctx info env (l.map .copyIn ++ rest) f h = exec ctx info env rest (f.copyIns info l) h :=
        by
  induction l generalizing f with
  | nil => simp [Frame.copyIns]
  | cons s l ih =>
    rw [List.map_cons,List.cons_append,exec,← Frame.copyIns_cons]
    exact ih _

theorem exec_copyOuts (l : List Nat) (rest : List Inst) (f : Frame) (h : List Event) :
    exec ctx info env (l.map .copyOut ++ rest) f h =
      exec ctx info env rest (f.copyOuts info l) h := by
  induction l generalizing f with
  | nil => simp [Frame.copyOuts]
  | cons s l ih =>
    rw [List.map_cons,List.cons_append,exec,← Frame.copyOuts_cons]
    exact ih _

theorem exec_copyIns_end (l : List Nat) (f : Frame) (h : List Event) :
    exec ctx info env (l.map .copyIn) f h = (f.copyIns info l,h) := by
  rw [← List.append_nil (l.map Inst.copyIn),exec_copyIns]
  rfl

theorem exec_copyOuts_end (l : List Nat) (f : Frame) (h : List Event) :
    exec ctx info env (l.map .copyOut) f h = (f.copyOuts info l,h) := by
  rw [← List.append_nil (l.map Inst.copyOut),exec_copyOuts]
  rfl

theorem see_copyOuts {l : List Nat} {callee : String} {args : List Nat}
    (hl : ∀ s ∈ l, ctx.mayRead callee args s = false) :
    see ctx callee args (f.copyOuts info l).mem = see ctx callee args f.mem := by
  funext s
  unfold see Frame.copyOuts
  by_cases hs : s ∈ l
  · simp [hl s hs]
  · simp [hs]

theorem write_copyOuts {l : List Nat} {callee : String} {args : List Nat}
    (hl : ∀ s ∈ l, ctx.mayWrite callee args s = false) (effect : Mem × Mem) :
    write ctx callee args effect (f.copyOuts info l).mem =
      (Frame.copyOuts info ⟨write ctx callee args effect f.mem,f.alloca⟩ l).mem := by
  funext s
  unfold write Frame.copyOuts
  by_cases hs : s ∈ l
  · simp [hl s hs,hs]
  · simp [hs]

theorem exec_append (insts rest : List Inst) (f : Frame) (h : List Event) :
    exec ctx info env (insts ++ rest) f h =
      exec ctx info env rest (exec ctx info env insts f h).1 (exec ctx info env insts f h).2 := by
  induction insts generalizing f h with
  | nil => rfl
  | cons inst insts ih => exact ih _ _

theorem mem_states (ha : a ∈ accesses F) : a.state ∈ states F := by
  unfold states
  rw [List.mem_insertionSort,List.mem_dedup]
  exact List.mem_map_of_mem ha

theorem mem_accesses {b : Nat} {op : Op} (hop : op ∈ (F.block b).body) (ha : access op = some a) :
    a ∈ accesses F := by
  unfold accesses
  rw [List.mem_filterMap]
  refine ⟨op,?_,ha⟩
  rw [List.mem_flatMap]
  exact F.exists_block hop

end Hqemu.Llvm.Allocas
