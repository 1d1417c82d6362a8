import Mathlib.Data.List.GetD

/-! Walks over a control-flow graph. A machine runs one block at a time and extends a history of
events, which decides the branches. -/
namespace Hqemu.Lib.Cfg

open List

structure Graph where
  entry : Nat
  succs : Nat → List Nat

def Graph.leaf (G : Graph) (b : Nat) : Bool := (G.succs b).isEmpty

def Graph.next (G : Graph) (b k : Nat) : Nat := (G.succs b).getD (k%(G.succs b).length) 0

structure Machine (σ ε ω : Type) where
  block : Nat → σ → List ε → σ × List ε
  leave : σ → ω

variable {σ τ ε ω : Type}

def walk (G : Graph) (M : Machine σ ε ω) (took : Nat → ε) (branch : List ε → Nat) :
    Nat → Nat → σ → List ε → List ε × Option ω
  | 0, _, _, h => (h,none)
  | n+1, b, s, h =>
    let r := M.block b s h
    if G.leaf b then (r.2,some (M.leave r.1))
    else walk G M took branch n (G.next b (branch r.2)) r.1 (took (branch r.2) :: r.2)

variable {G : Graph} {M : Machine σ ε ω} {took : Nat → ε} {branch : List ε → Nat} {b : Nat}

theorem walk_leaf (hb : G.leaf b = true) (n : Nat) (s : σ) (h : List ε) :
    walk G M took branch (n+1) b s h = ((M.block b s h).2,some (M.leave (M.block b s h).1)) := by
  rw [walk]
  simp [hb]

theorem walk_next (hb : G.leaf b = false) (n : Nat) (s : σ) (h : List ε) :
    walk G M took branch (n+1) b s h =
      walk G M took branch n (G.next b (branch (M.block b s h).2)) (M.block b s h).1
        (took (branch (M.block b s h).2) :: (M.block b s h).2) := by
  rw [walk]
  simp [hb]

theorem Graph.next_mem (hb : G.leaf b = false) (k : Nat) : G.next b k ∈ G.succs b := by
  have hne : G.succs b ≠ [] := by
    intro hnil
    simp [Graph.leaf,hnil] at hb
  have hlt : k%(G.succs b).length < (G.succs b).length := Nat.mod_lt _ (length_pos_iff.mpr hne)
  unfold Graph.next
  rw [getD_eq_getElem _ _ hlt]
  exact getElem_mem hlt

theorem Graph.exists_next {c : Nat} (hc : c ∈ G.succs b) : ∃ k, G.next b k = c := by
  obtain ⟨k,hk,hget⟩ := getElem_of_mem hc
  refine ⟨k,?_⟩
  unfold Graph.next
  rw [Nat.mod_eq_of_lt hk,getD_eq_getElem _ _ hk]
  exact hget

/-- Two machines whose blocks keep a relation indexed by the block entered next make the
same history and leave the same thing behind. -/
theorem walk_simulation {N : Machine τ ε ω} (R : Nat → σ → τ → Prop)
    (hblock : ∀ b s t h, R b s t → (M.block b s h).2 = (N.block b t h).2)
    (hleave : ∀ b s t h, R b s t → G.leaf b = true →
      M.leave (M.block b s h).1 = N.leave (N.block b t h).1)
    (hnext : ∀ b s t h c, R b s t → c ∈ G.succs b →
      R c (M.block b s h).1 (N.block b t h).1) (n : Nat) {s : σ} {t : τ} (h : List ε)
    (hR : R b s t) : walk G M took branch n b s h = walk G N took branch n b t h := by
  induction n generalizing b s t h with
  | zero => rfl
  | succ n ih =>
    cases hb : G.leaf b with
    | true => rw [walk_leaf hb,walk_leaf hb,hblock b s t h hR,hleave b s t h hR hb]
    | false =>
      rw [walk_next hb,walk_next hb,hblock b s t h hR]
      apply ih
      exact hnext b s t h _ hR (Graph.next_mem hb _)

theorem walk_isSome {rank : Nat → Nat} {bound : Nat}
    (hrank : ∀ b c, c ∈ G.succs b → rank b < rank c ∧ rank c < bound) {n : Nat}
    (hb : rank b < bound) (hn : bound ≤ rank b + n) (s : σ) (h : List ε) :
    (walk G M took branch n b s h).2.isSome = true := by
  induction n generalizing b s h with
  | zero => omega
  | succ n ih =>
    cases hleaf : G.leaf b with
    | true =>
      rw [walk_leaf hleaf]
      rfl
    | false =>
      rw [walk_next hleaf]
      have hnext := hrank b _ (Graph.next_mem hleaf (branch (M.block b s h).2))
      exact ih hnext.2 (by omega) _ _

theorem walk_suffix (hblock : ∀ b s h, h <:+ (M.block b s h).2) (n b : Nat) (s : σ) (h : List ε) :
    h <:+ (walk G M took branch n b s h).1 := by
  induction n generalizing b s h with
  | zero => exact suffix_refl h
  | succ n ih =>
    apply (hblock b s h).trans
    cases hb : G.leaf b with
    | true =>
      simp only [walk_leaf hb]
      exact suffix_refl _
    | false =>
      rw [walk_next hb]
      apply (suffix_cons _ _).trans
      exact ih _ _ _

theorem ne_of_suffix {h k h' k' : List ε} (hlen : h.length = k.length) (hne : h ≠ k)
    (hh : h <:+ h') (hk : k <:+ k') : h' ≠ k' := by
  intro heq
  subst heq
  apply hne
  exact (suffix_of_suffix_length_le hh hk (Nat.le_of_eq hlen)).eq_of_length hlen

theorem block_suffix_walk (hblock : ∀ b s h, h <:+ (M.block b s h).2) (n b : Nat) (s : σ)
    (h : List ε) : (M.block b s h).2 <:+ (walk G M took branch (n+1) b s h).1 := by
  cases hb : G.leaf b with
  | true =>
    simp only [walk_leaf hb]
    exact suffix_refl _
  | false =>
    rw [walk_next hb]
    apply (suffix_cons _ _).trans
    exact walk_suffix hblock _ _ _ _

theorem walk_ne_of_block_ne {N : Machine τ ε ω} (hM : ∀ b s h, h <:+ (M.block b s h).2)
    (hN : ∀ b t h, h <:+ (N.block b t h).2) {s : σ} {t : τ} {h : List ε}
    (hlen : (M.block b s h).2.length = (N.block b t h).2.length)
    (hne : (M.block b s h).2 ≠ (N.block b t h).2) (n : Nat) :
    walk G M took branch (n+1) b s h ≠ walk G N took branch (n+1) b t h := by
  intro heq
  apply ne_of_suffix hlen hne (block_suffix_walk hM n b s h) (block_suffix_walk hN n b t h)
  exact congrArg Prod.fst heq

end Hqemu.Lib.Cfg
