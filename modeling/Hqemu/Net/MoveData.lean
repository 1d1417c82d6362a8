import Hqemu.Net.Frame

/-! `move_data`: the bytes of a message go into the buffers of a receive, filled up to `old`. A
buffer is written from its beginning on. -/
namespace Hqemu.Net

open List

def memcpy (dst src : List Byte) : List Byte := src ++ dst.drop src.length

def moveRest : List (List Byte) → Nat → List Byte → List (List Byte) × Nat
  | [], _, _ => ([],0)
  | buf :: bufs, request, src =>
    if buf.length ≤ request then
      let written := memcpy buf (src.take buf.length)
      if request - buf.length = 0 then (written :: bufs,buf.length)
      else
        let behind := moveRest bufs (request-buf.length) (src.drop buf.length)
        (written :: behind.1,buf.length+behind.2)
    else (memcpy buf (src.take request) :: bufs,request)

def moveFirst : List (List Byte) → Nat → Nat → Nat → List Byte → List (List Byte) × Nat
  | [], _, _, _, _ => ([],0)
  | buf :: bufs, total, old, request, src =>
    let total := total+buf.length
    if old < total then
      let remain := total-old
      if request ≤ remain then (memcpy buf (src.take request) :: bufs,request)
      else
        let behind := moveRest bufs (request-remain) (src.drop remain)
        (memcpy buf (src.take remain) :: behind.1,remain+behind.2)
    else if total = old then
      let behind := moveRest bufs request src
      (buf :: behind.1,behind.2)
    else
      let behind := moveFirst bufs total old request src
      (buf :: behind.1,behind.2)

/-- `move_data`. `src` are the bytes of the message from `data->request_size` on. -/
def moveData (bufs : List (List Byte)) (old request : Nat) (src : List Byte) :
    List (List Byte) × Nat :=
  if request = 0 then (bufs,0) else moveFirst bufs 0 old request src

def Boundary (bufs : List (List Byte)) (old : Nat) : Prop :=
  ∃ j, j ≤ bufs.length ∧ (bufs.take j).flatten.length = old

instance (bufs : List (List Byte)) (old : Nat) : Decidable (Boundary bufs old) :=
  decidable_of_iff (∃ j, j < bufs.length+1 ∧ (bufs.take j).flatten.length = old) <| by
    simp [Boundary,Nat.lt_succ_iff]

variable {bufs : List (List Byte)} {old : Nat}

theorem boundary_congr {other : List (List Byte)}
    (hlengths : bufs.map List.length = other.map List.length) (hbound : Boundary bufs old) :
    Boundary other old := by
  have hcount : bufs.length = other.length := by simpa using congrArg List.length hlengths
  obtain ⟨j,hj,hlen⟩ := hbound
  refine ⟨j,hcount ▸ hj,?_⟩
  rw [length_flatten,map_take,← hlengths,← map_take,← length_flatten,hlen]

variable {buf : List Byte} {rel : Nat}

theorem Boundary.of_cons (hbound : Boundary (buf :: bufs) rel) :
    rel = 0 ∨ ∃ inner, rel = buf.length+inner ∧ Boundary bufs inner := by
  obtain ⟨j,hj,hlen⟩ := hbound
  cases j with
  | zero => exact .inl hlen.symm
  | succ j =>
    rw [take_succ_cons,flatten_cons,length_append] at hlen
    exact .inr ⟨_,hlen.symm,j,Nat.le_of_succ_le_succ hj,rfl⟩

structure Moved (bufs : List (List Byte)) (rel request : Nat) (src : List Byte)
    (out : List (List Byte) × Nat) : Prop where
  content : out.1.flatten =
    bufs.flatten.take rel ++ src.take request ++ bufs.flatten.drop (rel+request)
  lengths : out.1.map List.length = bufs.map List.length
  count : out.2 = request

variable {src : List Byte}

theorem length_memcpy {dst : List Byte} (hlen : src.length ≤ dst.length) :
    (memcpy dst src).length = dst.length := by
  simp only [memcpy,length_append,length_drop]
  omega

theorem memcpy_of_length_eq {dst : List Byte} (hlen : dst.length ≤ src.length) :
    memcpy dst src = src := by
  rw [memcpy,drop_eq_nil_of_le hlen,append_nil]

variable {request : Nat}

theorem moved_within (hreq : request ≤ buf.length) (hsource : request ≤ src.length) :
    Moved (buf :: bufs) 0 request src (memcpy buf (src.take request) :: bufs,request) := by
  have hlen : (src.take request).length = request := length_take_of_le hsource
  refine ⟨?_,?_,rfl⟩
  · simp only [memcpy,hlen,flatten_cons,take_zero,nil_append,Nat.zero_add,append_assoc]
    rw [drop_append_of_le_length hreq]
  · have hsame : (memcpy buf (src.take request)).length = buf.length :=
      length_memcpy (hlen.le.trans hreq)
    simp [hsame]

theorem Moved.cons {behind : List (List Byte) × Nat} (hreq : buf.length ≤ request)
    (hsource : request ≤ src.length)
    (hbehind : Moved bufs 0 (request-buf.length) (src.drop buf.length) behind) :
    Moved (buf :: bufs) 0 request src
      (memcpy buf (src.take buf.length) :: behind.1,buf.length+behind.2) := by
  have hlen : (src.take buf.length).length = buf.length := length_take_of_le (hreq.trans hsource)
  have hwrite : memcpy buf (src.take buf.length) = src.take buf.length := memcpy_of_length_eq
      hlen.ge
  refine ⟨?_,?_,?_⟩
  · have htake : src.take buf.length ++ (src.drop buf.length).take (request-buf.length) =
        src.take request := by
      rw [← take_add,Nat.add_sub_cancel' hreq]
    have hdrop : (buf :: bufs).flatten.drop request = bufs.flatten.drop (request-buf.length) := by
      rw [flatten_cons,drop_append,drop_eq_nil_of_le hreq,nil_append]
    rw [hwrite,flatten_cons,hbehind.content]
    simp only [take_zero,nil_append,Nat.zero_add]
    rw [hdrop,← htake,append_assoc]
  · simp [hbehind.lengths,hwrite,hlen]
  · rw [hbehind.count,Nat.add_sub_cancel' hreq]

theorem Moved.skip {behind : List (List Byte) × Nat} (hbehind : Moved bufs rel request src behind) :
    Moved (buf :: bufs) (buf.length+rel) request src (buf :: behind.1,behind.2) := by
  refine ⟨?_,?_,hbehind.count⟩
  · simp [hbehind.content,Nat.add_assoc,take_length_add_append,drop_length_add_append]
  · simp [hbehind.lengths]

theorem moved_moveRest (hroom : request ≤ bufs.flatten.length) (hsource : request ≤ src.length)
    (hpos : request ≠ 0) : Moved bufs 0 request src (moveRest bufs request src) := by
  induction bufs generalizing request src with
  | nil => exact absurd (Nat.le_zero.mp hroom) hpos
  | cons buf bufs ih =>
    rw [flatten_cons,length_append] at hroom
    simp only [moveRest]
    split
    · next hle =>
      split
      · next hz =>
        have heq : request = buf.length := by omega
        rw [heq] at hsource ⊢
        exact moved_within le_rfl hsource
      · next hmore =>
        have hrest : Moved bufs 0 (request-buf.length) (src.drop buf.length) _ :=
          ih (by omega) (by rw [length_drop]; omega) hmore
        exact hrest.cons hle hsource
    · exact moved_within (by omega) hsource

theorem moved_moveFirst {total : Nat} (hbound : Boundary bufs rel) (hold : old = total+rel)
    (hroom : rel+request ≤ bufs.flatten.length) (hsource : request ≤ src.length)
    (hpos : request ≠ 0) : Moved bufs rel request src (moveFirst bufs total old request src) := by
  induction bufs generalizing total rel with
  | nil => exact absurd hroom (by simp; omega)
  | cons buf bufs ih =>
    rw [flatten_cons,length_append] at hroom
    have hcases := hbound.of_cons
    simp only [moveFirst]
    split
    · next hlt =>
      have hz : rel = 0 := by
        rcases hcases with hz | ⟨inner,hinner,-⟩
        · exact hz
        · omega
      have hremain : total+buf.length-old = buf.length := by omega
      rw [hz,hremain]
      split
      · next hle => exact moved_within hle hsource
      · next hmore =>
        have hbehind : Moved bufs 0 (request-buf.length) (src.drop buf.length) _ :=
          moved_moveRest (by omega) (by rw [length_drop]; omega) (by omega)
        exact hbehind.cons (by omega) hsource
    · next hge =>
      split
      · next heq =>
        have hrel : rel = buf.length+0 := by omega
        rw [hrel]
        exact (moved_moveRest (by omega) hsource hpos).skip
      · next hne =>
        rcases hcases with hz | ⟨inner,hinner,hrest⟩
        · omega
        · rw [hinner]
          exact (ih hrest (by omega) (by omega)).skip

theorem moveRest_lengths (bufs : List (List Byte)) (request : Nat) (src : List Byte) :
    (moveRest bufs request src).1.map List.length = bufs.map List.length := by
  induction bufs generalizing request src with
  | nil => rfl
  | cons buf bufs ih =>
    have hwhole : (memcpy buf (src.take buf.length)).length = buf.length :=
      length_memcpy (length_take_le _ _)
    simp only [moveRest]
    split
    · split
      · simp [hwhole]
      · simp [hwhole,ih]
    · next hlt =>
      have hpart : (memcpy buf (src.take request)).length = buf.length :=
        length_memcpy ((length_take_le _ _).trans (by omega))
      simp [hpart]

theorem moveFirst_lengths (bufs : List (List Byte)) {total : Nat} (hold : total ≤ old)
    (request : Nat) (src : List Byte) :
    (moveFirst bufs total old request src).1.map List.length = bufs.map List.length := by
  induction bufs generalizing total with
  | nil => rfl
  | cons buf bufs ih =>
    have hwrite : ∀ size, size ≤ buf.length → (memcpy buf (src.take size)).length = buf.length :=
      fun size hsize => length_memcpy ((length_take_le _ _).trans hsize)
    simp only [moveFirst]
    split
    · split
      · simp [hwrite request (by omega)]
      · simp [hwrite (total+buf.length-old) (by omega),moveRest_lengths]
    · split
      · simp [moveRest_lengths]
      · have hbehind : total+buf.length ≤ old := by omega
        simp [ih hbehind]

theorem moveData_lengths (bufs : List (List Byte)) (old request : Nat) (src : List Byte) :
    (moveData bufs old request src).1.map List.length = bufs.map List.length := by
  unfold moveData
  split
  · rfl
  · exact moveFirst_lengths bufs (Nat.zero_le old) request src

theorem moved_moveData (hbound : Boundary bufs old) (hroom : old+request ≤ bufs.flatten.length)
    (hsource : request ≤ src.length) : Moved bufs old request src (moveData bufs old request src) :=
        by
  unfold moveData
  split
  · next hz => exact ⟨by simp [hz],rfl,hz.symm⟩
  · next hpos => exact moved_moveFirst hbound (Nat.zero_add old).symm hroom hsource hpos

end Hqemu.Net
