import Mathlib.Data.Nat.Digits.Defs

/-! Byte memories with little-endian loads and stores. Addresses are words and wrap around. -/
namespace Hqemu.Lib.Bytes

variable {w : Nat}

abbrev Mem (w : Nat) := BitVec w → BitVec 8

def bytes (m : Mem w) (a : BitVec w) (n : Nat) : List Nat :=
  (List.range n).map fun i => (m (a+BitVec.ofNat w i)).toNat

def load (m : Mem w) (a : BitVec w) (n : Nat) : Nat := Nat.ofDigits 256 (bytes m a n)

def Covers (a : BitVec w) (n : Nat) (x : BitVec w) : Prop := (x-a).toNat < n

instance (a : BitVec w) (n : Nat) (x : BitVec w) : Decidable (Covers a n x) :=
  inferInstanceAs (Decidable ((x-a).toNat < n))

def store (m : Mem w) (a : BitVec w) (n v : Nat) : Mem w :=
  fun x => if Covers a n x then BitVec.ofNat 8 (v/256^(x-a).toNat) else m x

theorem bytes_lt (m : Mem w) (a : BitVec w) (n : Nat) : ∀ x ∈ bytes m a n, x < 256 := by
  intro x hx
  obtain ⟨i,_,rfl⟩ := List.mem_map.mp hx
  exact (m _).isLt

theorem length_bytes (m : Mem w) (a : BitVec w) (n : Nat) : (bytes m a n).length = n := by
  simp [bytes]

theorem load_eq_iff {m m' : Mem w} {a a' : BitVec w} {n : Nat} :
    load m a n = load m' a' n ↔ ∀ i < n, m (a+BitVec.ofNat w i) = m' (a' + BitVec.ofNat w i) := by
  have hlist : bytes m a n = bytes m' a' n ↔
      ∀ i < n, m (a+BitVec.ofNat w i) = m' (a' + BitVec.ofNat w i) := by
    unfold bytes
    rw [List.map_inj_left]
    simp [BitVec.toNat_inj]
  rw [← hlist]
  constructor
  · intro h
    apply Nat.ofDigits_inj_of_len_eq (by omega) _ (bytes_lt m a n) (bytes_lt m' a' n) h
    rw [length_bytes,length_bytes]
  · intro h
    rw [load,load,h]

theorem load_part (m : Mem w) (a : BitVec w) {n k l : Nat} (h : k+l ≤ n) :
    (load m a n >>> (8*k)) % 2^(8*l) = load m (a+BitVec.ofNat w k) l := by
  have hpow : ∀ j, 2^(8*j) = 256^j := fun j => pow_mul 2 8 j
  have hlt : ∀ x ∈ (bytes m a n).drop k, x < 256 := fun x hx =>
    bytes_lt m a n x (List.mem_of_mem_drop hx)
  rw [Nat.shiftRight_eq_div_pow,hpow,hpow,load,
    Nat.ofDigits_div_pow_eq_ofDigits_drop k (by omega) _ (bytes_lt m a n),
    Nat.ofDigits_mod_pow_eq_ofDigits_take l (by omega) _ hlt,load]
  congr 1
  apply List.ext_getElem
  · simp [bytes]
    omega
  · intro i hi hi'
    have hcast : BitVec.ofNat w (k+i) = BitVec.ofNat w k + BitVec.ofNat w i := by
      apply BitVec.eq_of_toNat_eq
      simp
    simp [bytes,hcast,BitVec.add_assoc]

theorem store_of_not_covers {m : Mem w} {a x : BitVec w} {n v : Nat} (h : ¬ Covers a n x) :
    store m a n v x = m x := if_neg h

theorem store_of_covers {m : Mem w} {a x : BitVec w} {n v : Nat} (h : Covers a n x) :
    store m a n v x = BitVec.ofNat 8 (v/256^(x-a).toNat) := if_pos h

theorem load_store {m : Mem w} {a b : BitVec w} {n k v : Nat}
    (h : ∀ i < n, ¬ Covers b k (a+BitVec.ofNat w i)) : load (store m b k v) a n = load m a n := by
  rw [load_eq_iff]
  intro i hi
  exact store_of_not_covers (h i hi)

theorem load_eq_zero {m : Mem w} {a : BitVec w} {n : Nat} :
    load m a n = 0 ↔ ∀ i < n, m (a+BitVec.ofNat w i) = 0 := by
  have hz : load (fun _ => 0 : Mem w) a n = 0 := by
    unfold load bytes
    generalize List.range n = l
    induction l with
    | nil => rfl
    | cons i l ih =>
      rw [List.map_cons,Nat.ofDigits_cons,ih]
      simp
  nth_rewrite 1 [← hz]
  exact load_eq_iff

end Hqemu.Lib.Bytes
