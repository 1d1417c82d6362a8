import Hqemu.Llvm.Worklist
import Hqemu.Llvm.LostStores

/-! The acyclic mode of the state mapping pass: the function it produces, and when that
function shows what the untransformed one shows. -/
namespace Hqemu.Llvm.StateMapping
open StateIr Allocas MapState Worklist
open Deferred (flagContext storeOne)

variable {ctx : Context}

def code (F : IrFunction ctx) (P : Pass) (b : Nat) : List Inst :=
  match P.entry b with
  | none => (F.block b).body.map .keep
  | some st => if F.graph.leaf b then leafCode F b st else innerCode F b st (P.preload b)

def machine (F : IrFunction ctx) (env : Env) : Lib.Cfg.Machine Frame Event Mem where
  block b := Allocas.exec ctx (stateInfo F) env (code F (run F) b)
  leave f := visible ctx f.mem

/-- What the mapped function shows, from whatever its allocas hold at first. -/
def observe (F : IrFunction ctx) (env : Env) (mem : Mem) (alloca : Nat → Nat) (fuel : Nat) :
    List Event × Option Mem :=
  Lib.Cfg.walk F.graph (machine F env) .took env.branch fuel F.graph.entry ⟨mem,alloca⟩ []

def Entered (F : IrFunction ctx) (b : Nat) (f : Frame) (x : Deferred.Split) : Prop :=
  ∃ e, (run F).entry b = some e ∧ Rel F e f x

theorem Entered.next {F : IrFunction ctx} (hF : Acyclic F) {b c : Nat} {f : Frame}
    {x : Deferred.Split} (h : Entered F b f x) (env : Env) (l : List Event)
    (hc : c ∈ F.graph.succs b) :
    Entered F c (Allocas.exec ctx (stateInfo F) env (code F (run F) b) f l).1
      (Deferred.execBlock F (post F) env b x l).1 := by
  obtain ⟨e,he,hrel⟩ := h
  obtain ⟨hrun,hwork⟩ := run_running hF
  obtain ⟨e',he'⟩ := Option.ne_none_iff_exists'.mp (hrun.mapped hF hwork (hF.edge b c hc).1)
  refine ⟨e',he',?_⟩
  have hleaf := Deferred.leaf_of_mem hc
  simp only [code,he,hleaf,Bool.false_eq_true,if_false]
  apply (hrel.inner _ env hleaf _).2
  · intro s hs
    obtain ⟨e₀,he₀,hnone⟩ := hrun.contents.preload b s hs
    rw [he,Option.some.injEq] at he₀
    exact he₀ ▸ hnone
  · exact hrun.follows hc he he'

theorem observe_eq_deferred {F : IrFunction ctx} (hF : Acyclic F) (env : Env) (mem : Mem)
    (alloca : Nat → Nat) (fuel : Nat) :
    observe F env mem alloca fuel = Deferred.observe F (post F) env mem fuel := by
  apply Lib.Cfg.walk_simulation (Entered F)
  · intro b f x l h
    obtain ⟨e,he,hrel⟩ := h
    cases hleaf : F.graph.leaf b with
    | true =>
      simp only [machine,code,he,hleaf,if_true]
      exact (hrel.leaf env hleaf l).1
    | false =>
      simp only [machine,code,he,hleaf,Bool.false_eq_true,if_false]
      exact (hrel.inner _ env hleaf l).1
  · intro b f x l h hleaf
    obtain ⟨e,he,hrel⟩ := h
    simp only [machine,Deferred.machine,code,he,hleaf,if_true]
    rw [(hrel.leaf env hleaf l).2]
  · intro b f x l c h hc
    exact h.next hF env l hc
  · obtain ⟨hrun,hwork⟩ := run_running hF
    obtain ⟨e,he⟩ := Option.ne_none_iff_exists'.mp (hrun.mapped hF hwork hF.entry_lt)
    refine ⟨e,he,?_⟩
    rw [hrun.contents.start e he]
    exact Rel.empty F mem alloca

theorem observe_isSome {F : IrFunction ctx} (hF : Acyclic F) (env : Env) (mem : Mem)
    (alloca : Nat → Nat) : (observe F env mem alloca F.blocks.length).2.isSome = true := by
  have hrank : ∀ b c, c ∈ F.graph.succs b →
      hF.rank b < hF.rank c ∧ hF.rank c < F.blocks.length := by
    intro b c hc
    have hedge := hF.edge b c hc
    exact ⟨hedge.2,hF.rank_lt c hedge.1⟩
  exact Lib.Cfg.walk_isSome hrank (hF.rank_lt _ hF.entry_lt) (Nat.le_add_left _ _) _ _

/-- The mapped function comes to an exit, and it shows what the function shows exactly when no path
loses a store. -/
theorem stateMapping_preserves_iff (F : IrFunction ctx) (hF : Acyclic F) :
    (∀ env mem alloca, (observe F env mem alloca F.blocks.length).2.isSome = true) ∧
      ((∀ env mem alloca fuel,
          observe F env mem alloca fuel = StateIr.observe F env mem fuel) ↔
        Deferred.Safe F (post F)) := by
  refine ⟨observe_isSome hF,?_⟩
  have hpost : ∀ b, F.graph.leaf b = false → post F b = .never := by
    intro b hb
    simp [post,hb]
  rw [← Deferred.observe_eq_iff_safe F hpost]
  constructor
  · intro hall env mem fuel
    rw [← observe_eq_deferred hF env mem (fun _ => 0),hall]
  · intro hall env mem alloca fuel
    rw [observe_eq_deferred hF,hall]

def diamond : IrFunction (flagContext true) where
  blocks := [
    ⟨[.store ⟨8,0,32⟩,.load ⟨12,0,8⟩],none,.other,.branch [1,2]⟩,
    ⟨[.store ⟨8,0,8⟩,.call "helper_shld" []],none,.other,.branch [3]⟩,
    ⟨[.load ⟨8,8,8⟩],none,.other,.branch [3]⟩,
    ⟨[.load ⟨8,0,32⟩,.store ⟨12,0,8⟩],none,.other,.ret⟩]
  proper := by decide

theorem diamond_edges (b c : Nat) (hc : c ∈ diamond.graph.succs b) : c < 4 ∧ b < c := by
  have hall : ∀ b < 4, ∀ c ∈ diamond.graph.succs b, c < 4 ∧ b < c := by decide
  by_cases hb : b < 4
  · exact hall b hb c hc
  · rw [succs_of_not_lt diamond hb] at hc
    simp at hc

def diamondAcyclic : Acyclic diamond where
  rank b := b
  rank_lt _ hb := hb
  edge := diamond_edges
  entry_lt := by decide
  entry_first b hb := absurd (diamond_edges b 0 hb).2 (Nat.not_lt_zero b)
  pred := by
    have hall : ∀ c < 4, c ≠ 0 → ∃ b < 4, c ∈ diamond.graph.succs b := by decide
    intro c hc hne
    obtain ⟨b,-,hb⟩ := hall c hc hne
    exact ⟨b,hb⟩

theorem diamond_reads : Deferred.ReadsWhatItWrites diamond := by
  intro b callee args _ s hs
  by_cases hname : callee = "helper_shld"
  · simpa [Context.mayWrite,Context.mayRead,flagContext,hname] using hs
  · simp [Context.mayRead,flagContext,hname]

theorem stateMapping_preserves_diamond :
    Deferred.Safe diamond (post diamond) ∧ ∀ env mem alloca fuel,
      observe diamond env mem alloca fuel = StateIr.observe diamond env mem fuel := by
  have hsafe : Deferred.Safe diamond (post diamond) :=
    Deferred.safe_of_reads diamond_reads fun b hb => by simp [post,hb]
  exact ⟨hsafe,(stateMapping_preserves_iff diamond diamondAcyclic).2.mpr hsafe⟩

def storeThenCall : IrFunction (flagContext false) where
  blocks := [⟨[.store ⟨8,0,32⟩,.call "helper_shld" []],none,.other,.ret⟩]
  proper := by decide

/-- The helper is not known to read the flags, so the store is not written back before the call; it
may write them, so they are not cached after it. -/
theorem stateMapping_drops_store :
    (StateIr.observe storeThenCall storeOne (fun _ => 0) 1).2.map (fun mem => mem 8) = some 1 ∧
      (observe storeThenCall storeOne (fun _ => 0) (fun _ => 0) 1).2.map (fun mem => mem 8) =
        some 0 := by
  decide

end Hqemu.Llvm.StateMapping
