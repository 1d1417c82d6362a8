import Mathlib.Data.List.Basic

/-! Vectors of buffers, front to back: what is left after a number of items, and the cursor (a
buffer's index, the items done in it) for it. -/
namespace Hqemu.Lib.Iovec

open List

variable {α : Type}

def skip : List (List α) → Nat → List (List α)
  | [], _ => []
  | buf :: bufs, count =>
    if count < buf.length then buf.drop count :: bufs
    else if count = buf.length then bufs
    else skip bufs (count-buf.length)

variable (bufs : List (List α))

theorem flatten_cons_drop {buf : List α} {count : Nat} (hcount : buf.length ≤ count) :
    (buf :: bufs).flatten.drop count = bufs.flatten.drop (count-buf.length) := by
  rw [flatten_cons,drop_append,drop_eq_nil_of_le hcount,nil_append]

theorem flatten_skip (count : Nat) : (skip bufs count).flatten = bufs.flatten.drop count := by
  induction bufs generalizing count with
  | nil => simp [skip]
  | cons buf bufs ih =>
    unfold skip
    split
    · next hlt =>
      rw [flatten_cons,flatten_cons,drop_append_of_le_length (Nat.le_of_lt hlt)]
    · next hge =>
      have hdrop := flatten_cons_drop bufs (Nat.le_of_not_lt hge)
      split
      · next heq => rw [hdrop,heq,Nat.sub_self,drop_zero]
      · rw [hdrop,ih]

def upTo (size : Nat) : List (List α) → Nat → List (List α)
  | [], _ => []
  | buf :: bufs, done =>
    if done = size then []
    else if size < done+buf.length then [buf.take (size-done)]
    else buf :: upTo size bufs (done+buf.length)

theorem flatten_upTo {size : Nat} {done : Nat} (hdone : done ≤ size) :
    (upTo size bufs done).flatten = bufs.flatten.take (size-done) := by
  induction bufs generalizing done with
  | nil => simp [upTo]
  | cons buf bufs ih =>
    unfold upTo
    split
    · next heq => simp [heq]
    · split
      · next hcut =>
        rw [flatten_singleton,flatten_cons,take_append_of_le_length (by omega)]
      · next hfit =>
        rw [flatten_cons,ih (by omega),flatten_cons,take_append,
          take_of_length_le (show buf.length ≤ size - done by omega),Nat.sub_sub]

theorem map_length_upTo {size : Nat} {bufs others : List (List α)} (done : Nat)
    (h : bufs.map List.length = others.map List.length) :
    (upTo size bufs done).map List.length = (upTo size others done).map List.length := by
  induction bufs generalizing others done with
  | nil =>
    cases others with
    | nil => rfl
    | cons => cases h
  | cons buf bufs ih =>
    cases others with
    | nil => cases h
    | cons other others =>
      rw [map_cons,map_cons,List.cons.injEq] at h
      unfold upTo
      rw [h.1]
      split
      · rfl
      split
      · simp [h.1]
      · rw [map_cons,map_cons,h.1,ih _ h.2]

def rest (bufs : List (List α)) (idx last : Nat) : List (List α) :=
  if last = 0 then bufs.drop idx else (bufs.getD idx []).drop last :: bufs.drop (idx+1)

@[simp] theorem rest_zero : rest bufs 0 0 = bufs := by
  simp [rest]

variable {vec : List (List α)} {idx last : Nat}

theorem rest_eq_cons {bufs : List (List α)} {buf : List α}
    (hrest : rest bufs idx last = buf :: vec) :
    buf = (bufs.getD idx []).drop last ∧ vec = rest bufs (idx+1) 0 := by
  unfold rest at hrest
  split at hrest
  · next hlast =>
    have hlt : idx < bufs.length := by
      by_contra hge
      rw [drop_eq_nil_of_le (Nat.le_of_not_lt hge)] at hrest
      exact cons_ne_nil _ _ hrest.symm
    rw [drop_eq_getElem_cons hlt,List.cons.injEq] at hrest
    simp only [hlast,getD_eq_getElem?_getD,List.getElem?_eq_getElem hlt,
      Option.getD_some,drop_zero,rest,if_true]
    exact ⟨hrest.1.symm,hrest.2.symm⟩
  · rw [List.cons.injEq] at hrest
    exact ⟨hrest.1.symm,hrest.2.symm⟩

def advance : List (List α) → Nat → Nat → Nat → Nat × Nat
  | [], _, idx, last => (idx,last)
  | buf :: vec, count, idx, last =>
    if count < buf.length then (idx,last+count)
    else advance vec (count-buf.length) (idx+1) 0

theorem flatten_rest_advance {bufs : List (List α)} (count : Nat)
    (hvec : rest bufs idx last = vec) :
    (rest bufs (advance vec count idx last).1 (advance vec count idx last).2).flatten =
      vec.flatten.drop count := by
  induction vec generalizing count idx last with
  | nil => simp [advance,hvec]
  | cons buf vec ih =>
    have hcons := rest_eq_cons hvec
    unfold advance
    split
    · next hlt =>
      rw [flatten_cons,drop_append_of_le_length (Nat.le_of_lt hlt)]
      by_cases hz : last+count = 0
      · have hcount : count = 0 := by omega
        simp [hcount,hvec]
      · simp only [rest,if_neg hz,flatten_cons,hcons.1,drop_drop]
        rw [hcons.2,rest,if_pos rfl]
    · next hge =>
      rw [ih _ hcons.2.symm,flatten_cons_drop vec (Nat.le_of_not_lt hge)]

theorem advance_add_length {bufs : List (List α)} (count : Nat) (hvec : rest bufs idx last = vec)
    (hindex : idx+vec.length = bufs.length) :
    (advance vec count idx last).1 +
        (rest bufs (advance vec count idx last).1 (advance vec count idx last).2).length =
      bufs.length := by
  induction vec generalizing count idx last with
  | nil => simpa [advance,hvec] using hindex
  | cons buf vec ih =>
    rw [length_cons] at hindex
    unfold advance
    split
    · simp only [rest]
      split
      · rw [length_drop]
        omega
      · rw [length_cons,length_drop]
        omega
    · exact ih _ (rest_eq_cons hvec).2.symm (by omega)

theorem advance_all (vec : List (List α)) (idx last : Nat) :
    (advance vec vec.flatten.length idx last).1 = idx+vec.length := by
  induction vec generalizing idx last with
  | nil => rfl
  | cons buf vec ih =>
    have hsize : (buf :: vec).flatten.length - buf.length = vec.flatten.length := by
      simp
    unfold advance
    rw [if_neg (by simp),hsize,ih,length_cons]
    omega

end Hqemu.Lib.Iovec
