import Mathlib.Data.List.Basic

/-! Maps with ordered keys, as lists of entries in no particular order. -/
namespace Hqemu.Lib.OrderedMap

open List

variable {Value : Type}

def set (map : List (Nat × Value)) (key : Nat) (value : Value) : List (Nat × Value) :=
  (key,value) :: map.filter (·.1 != key)

/-- The entry with the greatest key up to `key`: the one before `upper_bound`. -/
def floor (map : List (Nat × Value)) (key : Nat) : Option (Nat × Value) :=
  match map with
  | [] => none
  | entry :: rest =>
    match floor rest key with
    | none => if entry.1 ≤ key then some entry else none
    | some best => if entry.1 ≤ key ∧ best.1 < entry.1 then some entry else some best

variable {map : List (Nat × Value)} {key : Nat}

theorem mem_set {value : Value} {entry : Nat × Value} :
    entry ∈ set map key value ↔ entry = (key,value) ∨ entry ∈ map ∧ entry.1 ≠ key := by
  simp [set]

theorem mem_of_lookup {value : Value} (h : map.lookup key = some value) : (key,value) ∈ map := by
  induction map with
  | nil => simp at h
  | cons entry rest ih =>
    rw [lookup_cons] at h
    split at h
    · rename_i heq
      rw [beq_iff_eq] at heq
      cases h
      rw [heq]
      exact mem_cons_self
    · exact mem_cons_of_mem _ (ih h)

theorem floor_isSome {entry : Nat × Value} (hentry : entry ∈ map) (hkey : entry.1 ≤ key) :
    ∃ best, floor map key = some best := by
  induction map with
  | nil => simp at hentry
  | cons first rest ih =>
    rw [floor]
    cases hrest : floor rest key with
    | some other =>
      dsimp only
      split
      · exact ⟨_,rfl⟩
      · exact ⟨_,rfl⟩
    | none =>
      rcases mem_cons.mp hentry with rfl | hmem
      · exact ⟨_,if_pos hkey⟩
      obtain ⟨best,hbest⟩ := ih hmem
      rw [hrest] at hbest
      cases hbest

theorem floor_some {best : Nat × Value} (h : floor map key = some best) :
    best ∈ map ∧ best.1 ≤ key ∧ ∀ entry ∈ map, entry.1 ≤ key → entry.1 ≤ best.1 := by
  induction map generalizing best with
  | nil => simp [floor] at h
  | cons first rest ih =>
    rw [floor] at h
    cases hrest : floor rest key with
    | none =>
      rw [hrest] at h
      dsimp only at h
      split at h
      · rename_i hle
        cases h
        refine ⟨mem_cons_self,hle,forall_mem_cons.mpr ⟨fun _ => Nat.le_refl _,?_⟩⟩
        intro entry hentry hkey
        obtain ⟨other,hother⟩ := floor_isSome hentry hkey
        rw [hrest] at hother
        cases hother
      · cases h
    | some other =>
      obtain ⟨hmem,hle,hmax⟩ := ih hrest
      rw [hrest] at h
      dsimp only at h
      split at h
      · rename_i hfirst
        cases h
        refine ⟨mem_cons_self,hfirst.1,forall_mem_cons.mpr ⟨fun _ => Nat.le_refl _,?_⟩⟩
        intro entry hentry hkey
        exact Nat.le_trans (hmax entry hentry hkey) (Nat.le_of_lt hfirst.2)
      · rename_i hfirst
        cases h
        refine ⟨mem_cons_of_mem _ hmem,hle,forall_mem_cons.mpr ⟨?_,hmax⟩⟩
        intro hkey
        exact Nat.not_lt.mp fun hlt => hfirst ⟨hkey,hlt⟩

end Hqemu.Lib.OrderedMap
