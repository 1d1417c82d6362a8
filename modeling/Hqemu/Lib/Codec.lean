import Mathlib.Data.Nat.Digits.Defs
import Mathlib.Data.BitVec

/-! Words in strings of bytes, and decoders that take them off the front. `Reads d bytes value` says
that `d` turns `bytes` into `value` and leaves what is behind. -/
namespace Hqemu.Lib.Codec

def encodeNat : Nat → Nat → List (BitVec 8)
  | 0, _ => []
  | n+1, value => BitVec.ofNat 8 value :: encodeNat n (value/256)

def decodeNat : List (BitVec 8) → Nat
  | [] => 0
  | byte :: rest => byte.toNat + 256 * decodeNat rest

def encodeWord {w : Nat} (n : Nat) (value : BitVec w) : List (BitVec 8) :=
  encodeNat n value.toNat

abbrev Decoder (α : Type) := StateT (List (BitVec 8)) Option α

def takeBytes (n : Nat) : Decoder (List (BitVec 8)) := fun bytes =>
  if bytes.length < n then none else some (bytes.take n,bytes.drop n)

def decodeWord (w n : Nat) : Decoder (BitVec w) := do
  let bytes ← takeBytes n
  return BitVec.ofNat w (decodeNat bytes)

def decodeMany {α : Type} (decode : Decoder α) : Nat → Decoder (List α)
  | 0 => pure []
  | count+1 => do
      let first ← decode
      let rest ← decodeMany decode count
      return first :: rest

@[simp] theorem length_encodeNat (n value : Nat) : (encodeNat n value).length = n := by
  induction n generalizing value with
  | zero => rfl
  | succ n ih => simp [encodeNat,ih]

@[simp] theorem length_encodeWord {w : Nat} (n : Nat) (value : BitVec w) :
    (encodeWord n value).length = n := length_encodeNat n value.toNat

theorem decodeNat_encodeNat (n value : Nat) : decodeNat (encodeNat n value) = value%256^n := by
  induction n generalizing value with
  | zero => simp [encodeNat,decodeNat,Nat.mod_one]
  | succ n ih =>
    have hpow : 256^(n+1) = 256*256^n := Nat.pow_succ'
    rw [encodeNat,decodeNat,ih,BitVec.toNat_ofNat,hpow,Nat.mod_mul]

section Reads

variable {α β : Type}

def Reads (decode : Decoder α) (bytes : List (BitVec 8)) (value : α) : Prop :=
  ∀ rest, decode (bytes ++ rest) = some (value,rest)

theorem bind_apply (decode : Decoder α) (next : α → Decoder β) (bytes : List (BitVec 8)) :
    (decode >>= next) bytes = (decode bytes).bind fun out => next out.1 out.2 := rfl

theorem Reads.pure (value : α) : Reads (Pure.pure value) [] value := fun _ => rfl

variable {decode : Decoder α} {first : α}

theorem Reads.bind {next : α → Decoder β} {front back : List (BitVec 8)} {value : β}
    (hfirst : Reads decode front first) (hnext : Reads (next first) back value) :
    Reads (decode >>= next) (front ++ back) value := by
  intro rest
  rw [List.append_assoc,bind_apply,hfirst,Option.bind_some,hnext]

theorem Reads.last {next : α → Decoder β} {bytes : List (BitVec 8)} {value : β}
    (hfirst : Reads decode bytes first) (hnext : Reads (next first) [] value) :
    Reads (decode >>= next) bytes value := by
  have hbind := hfirst.bind hnext
  rwa [List.append_nil] at hbind

theorem Reads.map {bytes : List (BitVec 8)} (hfirst : Reads decode bytes first) (finish : α → β) :
    Reads (do let value ← decode; return finish value) bytes (finish first) :=
  hfirst.last (Reads.pure (finish first))

theorem reads_takeBytes (bytes : List (BitVec 8)) : Reads (takeBytes bytes.length) bytes bytes := by
  intro rest
  simp [takeBytes]

theorem reads_word {w n : Nat} (value : BitVec w) (hsize : w ≤ 8*n) :
    Reads (decodeWord w n) (encodeWord n value) value := by
  have htake := reads_takeBytes (encodeWord n value)
  rw [length_encodeWord] at htake
  have hword := htake.map fun bytes => BitVec.ofNat w (decodeNat bytes)
  have hvalue : BitVec.ofNat w (decodeNat (encodeWord n value)) = value := by
    have hpow : 2^w ≤ 256^n := by
      rw [show 256 = 2 ^ 8 by rfl,← Nat.pow_mul]
      exact Nat.pow_le_pow_right (by omega) hsize
    rw [encodeWord,decodeNat_encodeNat,Nat.mod_eq_of_lt (by have := value.isLt; omega),
      BitVec.ofNat_toNat,BitVec.setWidth_eq]
  rwa [hvalue] at hword

theorem reads_word_bind {w n : Nat} {word : BitVec w} (hsize : w ≤ 8*n)
    {next : BitVec w → Decoder β} {bytes : List (BitVec 8)} {value : β} :
    Reads (decodeWord w n >>= next) (encodeWord n word ++ bytes) value ↔
      Reads (next word) bytes value := by
  refine ⟨fun h rest => ?_,(reads_word word hsize).bind⟩
  rw [← h rest,List.append_assoc,bind_apply,reads_word word hsize,Option.bind_some]

theorem reads_many {decode : Decoder β} {encode : α → List (BitVec 8)} {view : α → β}
    {items : List α} (hitem : ∀ item ∈ items, Reads decode (encode item) (view item)) :
    Reads (decodeMany decode items.length) (items.flatMap encode) (items.map view) := by
  induction items with
  | nil => exact Reads.pure []
  | cons item items ih =>
    have hrest := ih fun other hother => hitem other (List.mem_cons_of_mem _ hother)
    have hmore := hrest.map fun rest => view item :: rest
    exact (hitem item List.mem_cons_self).bind hmore

theorem reads_words {w n : Nat} (words : List (BitVec w)) (hsize : w ≤ 8*n) :
    Reads (decodeMany (decodeWord w n) words.length) (words.flatMap (encodeWord n)) words := by
  have hmany := reads_many fun word (_ : word ∈ words) => reads_word word hsize
  rwa [List.map_id'] at hmany

end Reads

theorem decodeMany_forall {α : Type} {decode : Decoder α} {P : α → Prop} {count : Nat}
    {bytes rest : List (BitVec 8)} {items : List α}
    (hitem : ∀ bytes item rest, decode bytes = some (item,rest) → P item)
    (hread : decodeMany decode count bytes = some (items,rest)) :
    items.length = count ∧ ∀ item ∈ items, P item := by
  induction count generalizing bytes items rest with
  | zero =>
    cases hread
    exact ⟨rfl,nofun⟩
  | succ count ih =>
    obtain ⟨first,hfirst,hrest⟩ := Option.bind_eq_some_iff.mp hread
    obtain ⟨others,hothers,hitems⟩ := Option.bind_eq_some_iff.mp hrest
    cases hitems
    obtain ⟨hlen,hall⟩ := ih hothers
    exact ⟨congrArg (· + 1) hlen,List.forall_mem_cons.mpr ⟨hitem bytes first.1 first.2 hfirst,hall⟩⟩

end Hqemu.Lib.Codec
