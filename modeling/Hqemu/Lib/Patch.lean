import Mathlib.Logic.Function.Basic

/-! A store of numbered cells, and the replacement of a range of them. -/
namespace Hqemu.Lib.Patch

variable {Cell : Type}

def patch (store : Nat → Cell) (start count : Nat) (content : Nat → Cell) : Nat → Cell :=
  fun cell => if start ≤ cell ∧ cell < start + count then content (cell-start) else store cell

variable {store content : Nat → Cell} {start count cell : Nat}

theorem patch_inside (hstart : start ≤ cell) (hend : cell < start+count) :
    patch store start count content cell = content (cell-start) :=
  if_pos ⟨hstart,hend⟩

theorem patch_outside (h : cell < start ∨ start+count ≤ cell) :
    patch store start count content cell = store cell :=
  if_neg (by omega)

theorem patch_shift (start cell : Nat) {place shifted : Nat} (h : place+cell = start+shifted) :
    patch store place count content shifted =
      patch (fun _ => store shifted) start count content cell := by
  have hplace : shifted-place = cell-start := by omega
  unfold patch
  grind

theorem patch_congr {other : Nat → Cell} (h : store cell = other cell) :
    patch store start count content cell = patch other start count content cell := by
  unfold patch
  rw [h]

theorem patch_patch (more : Nat) :
    patch (patch store start count content) (start+count) more
      (fun i => content (count+i)) = patch store start (count+more) content := by
  funext cell
  unfold patch
  by_cases hlow : start ≤ cell ∧ cell < start+count
  · rw [if_neg (by omega),if_pos hlow,if_pos (by omega)]
  rw [if_neg hlow]
  by_cases hhi : start+count ≤ cell ∧ cell < start+count+more
  · have hcell : count + (cell-(start+count)) = cell-start := by omega
    rw [if_pos hhi,if_pos (by omega)]
    exact congrArg content hcell
  · rw [if_neg hhi,if_neg (by omega)]

end Hqemu.Lib.Patch
