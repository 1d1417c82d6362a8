import Mathlib.Logic.Basic

/-! The writing side of a `QEMUFile` (`savevm.c`). -/
namespace Hqemu.Migration.PutBuffer

open List

def ioBufSize : Nat := 32768

/-- `buf` are the first `buf_index` bytes of the buffer. `calls` counts the calls of the backend,
and `accepted` are the bytes it took, with their positions. -/
structure QEMUFile where
  buf : List UInt8
  bufOffset : Nat
  hasError : Bool
  calls : Nat
  accepted : List (UInt8 × Nat)

/-- `put_buffer`: the answer to each call, for the position and the bytes offered. An answer that
is positive is the number of bytes taken. -/
abbrev Backend := Nat → Nat → List UInt8 → Int

def qemuFflush (backend : Backend) (f : QEMUFile) : QEMUFile :=
  if f.buf = [] then f
  else
    let len := backend f.calls f.bufOffset f.buf
    let accepted := f.accepted ++ (f.buf.take len.toNat).zipIdx f.bufOffset
    if len > 0 then ⟨[],f.bufOffset+f.buf.length,f.hasError,f.calls+1,accepted⟩
    else ⟨[],f.bufOffset,true,f.calls+1,accepted⟩

/-- Bytes are copied to the buffer, which is flushed when it is full. -/
def store (backend : Backend) (f : QEMUFile) (bytes : List UInt8) : QEMUFile :=
  let f := { f with buf := f.buf ++ bytes }
  if f.buf.length ≥ ioBufSize then qemuFflush backend f else f

def qemuPutByte (backend : Backend) (f : QEMUFile) (v : UInt8) : QEMUFile := store backend f [v]

def putLoop (backend : Backend) : Nat → QEMUFile → List UInt8 → QEMUFile
  | 0, f, _ => f
  | fuel+1, f, bytes =>
    if f.hasError = true ∨ bytes = [] then f
    else
      let l := min (ioBufSize-f.buf.length) bytes.length
      putLoop backend fuel (store backend f (bytes.take l)) (bytes.drop l)

def qemuPutBuffer (backend : Backend) (f : QEMUFile) (bytes : List UInt8) : QEMUFile :=
  putLoop backend bytes.length f bytes

/-- The bytes that `qemu_put_be16`, `qemu_put_be32` and `qemu_put_be64` put, one by one. -/
def beBytes (size value : Nat) : List UInt8 :=
  (List.range size).reverse.map fun i => UInt8.ofNat (value >>> (8*i))

inductive Op where
  | putByte (v : UInt8)
  | putInt (size value : Nat)
  | putBuffer (bytes : List UInt8)
  | flush

def Op.bytes : Op → List UInt8
  | .putByte v => [v]
  | .putInt size value => beBytes size value
  | .putBuffer bytes => bytes
  | .flush => []

def perform (backend : Backend) (f : QEMUFile) : Op → QEMUFile
  | .putByte v => qemuPutByte backend f v
  | .putInt size value => (beBytes size value).foldl (qemuPutByte backend) f
  | .putBuffer bytes => qemuPutBuffer backend f bytes
  | .flush => qemuFflush backend f

def opened : QEMUFile := ⟨[],0,false,0,[]⟩

/-- Without an error the backend has taken all bytes put but those in the buffer, each at the
position where it belongs. -/
def Exact (f : QEMUFile) (put : List UInt8) : Prop :=
  f.hasError = false → ∃ flushed, put = flushed ++ f.buf ∧ f.accepted = flushed.zipIdx

def AllOrNothing (backend : Backend) : Prop :=
  ∀ call pos bytes, backend call pos bytes ≤ 0 ∨ bytes.length ≤ backend call pos bytes

structure Inv (f : QEMUFile) (put : List UInt8) : Prop where
  room : f.buf.length < ioBufSize
  exact : f.hasError = false → ∃ flushed, put = flushed ++ f.buf ∧
    f.accepted = flushed.zipIdx ∧ f.bufOffset = flushed.length

variable {backend : Backend} {f : QEMUFile} {put bytes : List UInt8}

section

variable (hbackend : AllOrNothing backend)
include hbackend

theorem flush_exact (h : f.hasError = false →
      ∃ flushed, put = flushed ++ f.buf ∧ f.accepted = flushed.zipIdx ∧
        f.bufOffset = flushed.length) : Inv (qemuFflush backend f) put := by
  by_cases hempty : f.buf = []
  · rw [qemuFflush,if_pos hempty]
    exact ⟨by simp [hempty,ioBufSize],h⟩
  · rw [qemuFflush,if_neg hempty]
    by_cases hlen : backend f.calls f.bufOffset f.buf > 0
    · rw [if_pos hlen]
      refine ⟨by simp [ioBufSize],fun herr => ?_⟩
      obtain ⟨flushed,rfl,haccept,hoff⟩ := h herr
      have hall := (hbackend f.calls f.bufOffset f.buf).resolve_left (by omega)
      have htake : f.buf.take (backend f.calls f.bufOffset f.buf).toNat = f.buf :=
        take_of_length_le (by omega)
      refine ⟨flushed ++ f.buf,by simp,?_,by simp [hoff]⟩
      rw [htake,haccept,hoff,zipIdx_append,Nat.zero_add]
    · rw [if_neg hlen]
      exact ⟨by simp [ioBufSize],nofun⟩

theorem Inv.store (h : Inv f put) (bytes : List UInt8) :
    Inv (store backend f bytes) (put ++ bytes) := by
  have hexact : f.hasError = false → ∃ flushed, put ++ bytes = flushed ++ (f.buf ++ bytes) ∧
      f.accepted = flushed.zipIdx ∧ f.bufOffset = flushed.length := by
    intro herr
    obtain ⟨flushed,rfl,haccept⟩ := h.exact herr
    exact ⟨flushed,append_assoc _ _ _,haccept⟩
  simp only [PutBuffer.store]
  split
  · exact flush_exact hbackend hexact
  · next hroom => exact ⟨by simpa using hroom,hexact⟩

theorem Inv.putLoop (h : Inv f put) {fuel : Nat}
    (hfuel : bytes.length ≤ fuel) : Inv (putLoop backend fuel f bytes) (put ++ bytes) := by
  induction fuel generalizing f put bytes with
  | zero =>
    have hnil := eq_nil_of_length_eq_zero (Nat.le_zero.mp hfuel)
    rw [hnil,append_nil]
    exact h
  | succ fuel ih =>
    rw [PutBuffer.putLoop]
    split
    · next hstop =>
      refine ⟨h.room,fun herr => ?_⟩
      have hnil := hstop.resolve_left (by simp [herr])
      rw [hnil,append_nil]
      exact h.exact herr
    · next hgo =>
      have hroom := h.room
      generalize hl : min (ioBufSize-f.buf.length) bytes.length = l
      have hdrop : (bytes.drop l).length ≤ fuel := by
        rw [length_drop]
        omega
      have hrest := ih (h.store hbackend (bytes.take l)) hdrop
      rwa [append_assoc,take_append_drop] at hrest

theorem Inv.perform (h : Inv f put) (op : Op) : Inv (perform backend f op) (put ++ op.bytes) := by
  cases op with
  | putByte v => exact h.store hbackend [v]
  | putInt size value =>
    simp only [PutBuffer.perform,Op.bytes]
    generalize beBytes size value = bytes
    induction bytes generalizing f put with
    | nil => rwa [append_nil]
    | cons byte rest ih =>
      have hrest := ih (h.store hbackend [byte])
      rwa [append_assoc] at hrest
  | putBuffer bytes => exact h.putLoop hbackend (Nat.le_refl _)
  | flush =>
    simp only [PutBuffer.perform,Op.bytes,append_nil]
    exact flush_exact hbackend h.exact

end

/-- A backend that takes all or nothing has got all that was put and flushed, unless an error is
flagged. -/
theorem exact_of_allOrNothing (backend : Backend) (hbackend : AllOrNothing backend)
    (ops : List Op) : Exact (ops.foldl (perform backend) opened) (ops.flatMap Op.bytes) := by
  have hopened : Inv opened [] := ⟨by decide,fun _ => ⟨[],rfl,rfl,rfl⟩⟩
  have hrun : ∀ f put, Inv f put →
      Inv (ops.foldl (perform backend) f) (put ++ ops.flatMap Op.bytes) := by
    induction ops with
    | nil => intro f put h; rwa [flatMap_nil,append_nil]
    | cons op rest ih =>
      intro f put h
      rw [foldl_cons,flatMap_cons,← append_assoc]
      exact ih _ _ (h.perform hbackend op)
  intro herr
  obtain ⟨flushed,hput,haccept,-⟩ := (hrun opened [] hopened).exact herr
  exact ⟨flushed,hput,haccept⟩

theorem exact_of_allOrNothing_twoBytes :
    AllOrNothing (fun _ _ bytes => bytes.length) ∧
      Exact ([Op.putBuffer [1, 2], .flush].foldl (perform fun _ _ bytes => bytes.length) opened)
        [1, 2] :=
  ⟨fun _ _ _ => .inr (Int.le_refl _),exact_of_allOrNothing _ (fun _ _ _ => .inr (Int.le_refl _))
    [.putBuffer [1,2],.flush]⟩

/-- A backend that takes one byte of two: no error is flagged, and the second byte is gone. -/
theorem short_write_unnoticed :
    ([Op.putBuffer [1, 2], .flush].foldl (perform fun _ _ _ => 1) opened).hasError = false ∧
      ([Op.putBuffer [1, 2], .flush].foldl (perform fun _ _ _ => 1) opened).accepted = [(1, 0)] ∧
      ([Op.putBuffer [1, 2], .flush].foldl (perform fun _ _ _ => 1) opened).buf = [] ∧
      ¬Exact ([Op.putBuffer [1, 2], .flush].foldl (perform fun _ _ _ => 1) opened) [1, 2] := by
  refine ⟨by decide,by decide,by decide,fun hexact => ?_⟩
  obtain ⟨flushed,hput,haccept⟩ := hexact (by decide)
  rw [show ([Op.putBuffer [1, 2], .flush].foldl (perform fun _ _ _ => 1) opened).buf = [] by decide,
    append_nil] at hput
  subst hput
  revert haccept
  decide

end Hqemu.Migration.PutBuffer
