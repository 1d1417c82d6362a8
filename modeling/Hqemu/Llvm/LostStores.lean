import Hqemu.Llvm.Deferred

/-! Paths that lose a store under deferred write-back, shown by an environment that stores the
opposite of what CPUState holds. -/
namespace Hqemu.Llvm.Deferred
open List StateIr

variable {ctx : Context}

/-- The machine's memories, followed through a history in which no helper wrote. -/
def replay (ctx : Context) : List Event → Split
  | [] => ⟨fun _ => 0,fun _ => 0⟩
  | .loaded _ _ :: l => replay ctx l
  | .stored a v :: l => { replay ctx l with cur := (replay ctx l).cur.put a v }
  | .called callee args _ :: l =>
    (replay ctx l).reload ctx callee args ((replay ctx l).synced ctx callee args)
  | .took _ :: l => replay ctx l

def taken : List Event → Nat
  | [] => 0
  | .took _ :: l => taken l + 1
  | _ :: l => taken l

def hostile (ctx : Context) (path : List Nat) : Env where
  value a l := (2^a.bits-1) ^^^ (replay ctx l).base.get a
  helper _ _ _ _ := (fun _ => 0,fun _ => 0)
  branch l := path.getD (taken l) 0

structure Opposed (m : Marks) (mem : Mem) (x : Split) : Prop where
  pend : ∀ s i, (m.pend s).testBit i = true → (x.cur s).testBit i ≠ (x.base s).testBit i
  lost : ∀ s i, (m.lost s).testBit i = true →
    (mem s).testBit i ≠ (x.base s).testBit i ∧ (m.pend s).testBit i = false

open Lib.Cfg

theorem write_nothing (callee : String) (args : List Nat) (mem : Mem) :
    write ctx callee args (fun _ => 0,fun _ => 0) mem = mem := by
  funext s
  simp [write,Lib.Bits.blend]

variable {m : Marks} {mem : Mem} {x : Split}

theorem Opposed.store (h : Opposed m mem x) (a : Access) :
    Opposed (m.after ctx (.store a)) (mem.put a ((2^a.bits-1) ^^^ x.base.get a))
      { x with cur := x.cur.put a ((2^a.bits-1) ^^^ x.base.get a) } := by
  have hflip : ∀ s i, a.Covers s i →
      ((2^a.bits-1) ^^^ x.base.get a).testBit (i-a.diff) = !(x.base s).testBit i := by
    intro s i hi
    have hs := hi.1
    have hlt : i-a.diff < a.bits := by have := hi.2; omega
    have hadd : a.diff+(i-a.diff) = i := by have := hi.2; omega
    simp [Mem.get,Lib.Bits.testBit_extract,Nat.testBit_two_pow_sub_one,hlt,hadd,hs]
  constructor
  · intro s i
    simp only [Marks.after,testBit_put]
    split
    · rename_i hi
      simp [hflip s i hi]
    · exact h.pend s i
  · intro s i
    simp only [Marks.after,testBit_put]
    split
    · simp
    · exact h.lost s i

theorem Opposed.call (h : Opposed m mem x) (ha : Agrees m mem x) {callee : String} {args : List Nat}
    (hclear : m.Clear ctx (.call callee args)) :
    Opposed (m.after ctx (.call callee args)) mem
      (x.reload ctx callee args (x.synced ctx callee args)) := by
  constructor
  · intro s i
    simp only [Marks.after,Split.reload,Split.synced]
    by_cases hr : ctx.mayRead callee args s = true
    · simp [hr]
    by_cases hw : ctx.mayWrite callee args s = true
    · simp [hw]
    · simpa [hr,hw] using h.pend s i
  · intro s i
    simp only [Marks.after,Split.reload,Split.synced]
    by_cases hr : ctx.mayRead callee args s = true
    · simp [hr,hclear s hr]
    by_cases hw : ctx.mayWrite callee args s = true
    · simp only [hr,hw,Bool.not_false,Bool.and_self,if_true,Nat.testBit_or,Bool.or_eq_true,
        Bool.false_eq_true,if_false,Bool.or_true,Nat.zero_testBit,and_true]
      rintro (hlost | hpend)
      · exact (h.lost s i hlost).1
      · have hkeep : (m.lost s).testBit i = false := by
          cases hl : (m.lost s).testBit i with
          | false => rfl
          | true => simp [(h.lost s i hl).2] at hpend
        rw [ha.cur s i hkeep]
        exact h.pend s i hpend
    · simpa [hr,hw] using h.lost s i

theorem Opposed.flush (h : Opposed m mem x) (ha : Agrees m mem x) (wanted : Bool) :
    Opposed (m.flush ctx wanted) mem (x.flush ctx wanted) := by
  constructor
  · intro s i
    simp only [Marks.flush,Split.flush]
    cases wanted && !ctx.scratch s with
    | true => simp
    | false => simpa using h.pend s i
  · intro s i hlost
    have hold := h.lost s i hlost
    simp only [Marks.flush,Split.flush]
    cases wanted && !ctx.scratch s with
    | true =>
      rw [← ha.base s i hold.2] at hold
      simpa using hold.1
    | false => simpa using hold

theorem exists_testBit {n : Nat} (hn : n ≠ 0) : ∃ i, n.testBit i = true := by
  by_contra hnone
  apply hn
  apply Nat.eq_of_testBit_eq
  intro i
  rw [Nat.zero_testBit]
  exact Bool.eq_false_iff.mpr fun hi => hnone ⟨i,hi⟩

variable {s : Nat}

theorem Opposed.cur_ne (h : Opposed m mem x) (ha : Agrees m mem x) {i : Nat}
    (hlost : (m.lost s).testBit i = true) : (mem s).testBit i ≠ (x.cur s).testBit i := by
  rw [ha.base s i (h.lost s i hlost).2]
  exact (h.lost s i hlost).1

theorem Opposed.base_ne (h : Opposed m mem x) (ha : Agrees m mem x)
    (hs : ¬ (m.pend s = 0 ∧ m.lost s = 0)) : mem s ≠ x.base s := by
  intro heq
  by_cases hlost : m.lost s = 0
  · have hpend : m.pend s ≠ 0 := fun hpend => hs ⟨hpend,hlost⟩
    obtain ⟨i,hi⟩ := exists_testBit hpend
    apply h.pend s i hi
    rw [← heq,← ha.cur_eq hlost]
  · obtain ⟨i,hi⟩ := exists_testBit hlost
    exact (h.lost s i hi).1 (by rw [heq])

variable {op : Op}

theorem Opposed.parted (h : Opposed m mem x) (ha : Agrees m mem x) (env : Env)
    (hop : ¬ m.Clear ctx op) (l : List Event) :
    (StateIr.step ctx env op mem l).2 ≠ (step ctx env op x l).2 := by
  cases op with
  | load a =>
    intro heq
    apply hop
    simp only [StateIr.step,Deferred.step,List.cons.injEq,Event.loaded.injEq,true_and,
      and_true] at heq
    show m.lost.get a = 0
    rw [get_eq_zero_iff]
    intro i hi
    apply Bool.eq_false_iff.mpr
    intro hlost
    exact h.cur_ne ha hlost ((get_eq_iff _ _ _).mp heq i hi)
  | store a => exact absurd trivial hop
  | call callee args =>
    intro heq
    apply hop
    simp only [StateIr.step,Deferred.step,List.cons.injEq,Event.called.injEq,true_and,
      and_true] at heq
    intro s hs
    by_contra hlost
    obtain ⟨i,hi⟩ := exists_testBit hlost
    apply h.cur_ne ha hi
    have hview := congrFun heq s
    simp only [see,Split.synced,hs,if_true] at hview
    rw [hview]

variable {l : List Event}

theorem Opposed.step (h : Opposed m mem x) (ha : Agrees m mem x) (path : List Nat)
    (hclear : m.Clear ctx op) (hbase : (∃ a, op = .store a) → (replay ctx l).base = x.base) :
    Opposed (m.after ctx op) (StateIr.step ctx (hostile ctx path) op mem l).1
      (step ctx (hostile ctx path) op x l).1 := by
  cases op with
  | load a => exact h
  | store a =>
    simp only [StateIr.step,Deferred.step,hostile,hbase ⟨a,rfl⟩]
    exact h.store a
  | call callee args =>
    simp only [StateIr.step,Deferred.step,hostile,write_nothing]
    exact h.call ha hclear

theorem replay_step (path : List Nat) (op : Op) (hl : replay ctx l = x) :
    replay ctx (step ctx (hostile ctx path) op x l).2 = (step ctx (hostile ctx path) op x l).1 := by
  subst hl
  cases op with
  | load a => rfl
  | store a => rfl
  | call callee args => simp only [Deferred.step,hostile,write_nothing,replay]

variable (env : Env)

variable (ops : List Op)

theorem stateIr_exec_suffix (mem : Mem) (l : List Event) :
    l <:+ (StateIr.exec ctx env ops mem l).2 := by
  induction ops generalizing mem l with
  | nil => exact suffix_refl l
  | cons op ops ih =>
    apply List.IsSuffix.trans _ (ih _ _)
    cases op <;> exact suffix_cons _ _

theorem exec_suffix (x : Split) (l : List Event) : l <:+ (exec ctx env ops x l).2 := by
  induction ops generalizing x l with
  | nil => exact suffix_refl l
  | cons op ops ih =>
    apply List.IsSuffix.trans _ (ih _ _)
    cases op <;> exact suffix_cons _ _

theorem stateIr_exec_length (mem : Mem) (l : List Event) :
    (StateIr.exec ctx env ops mem l).2.length = ops.length+l.length := by
  induction ops generalizing mem l with
  | nil => simp [StateIr.exec]
  | cons op ops ih =>
    simp only [StateIr.exec,ih,length_cons]
    cases op <;> simp only [StateIr.step,length_cons] <;> omega

theorem exec_length (x : Split) (l : List Event) :
    (exec ctx env ops x l).2.length = ops.length+l.length := by
  induction ops generalizing x l with
  | nil => simp [Deferred.exec]
  | cons op ops ih =>
    simp only [Deferred.exec,ih,length_cons]
    cases op <;> simp only [Deferred.step,length_cons] <;> omega

theorem exec_ne (mem : Mem) (x : Split) {k : List Event} (hlen : l.length = k.length)
    (hne : l ≠ k) : (StateIr.exec ctx env ops mem l).2 ≠ (exec ctx env ops x k).2 :=
  ne_of_suffix hlen hne (stateIr_exec_suffix env ops mem l) (exec_suffix env ops x k)

theorem replay_exec (path : List Nat) (ops : List Op) (hl : replay ctx l = x) :
    replay ctx (exec ctx (hostile ctx path) ops x l).2 =
      (exec ctx (hostile ctx path) ops x l).1 := by
  induction ops generalizing x l with
  | nil => exact hl
  | cons op ops ih => exact ih (replay_step path op hl)

theorem Opposed.exec (h : Opposed m mem x) (ha : Agrees m mem x) (path : List Nat) (ops : List Op)
    (hl : (∃ a, Op.store a ∈ ops) → replay ctx l = x) :
    (SafeOps ctx ops m →
      Opposed (m.scan ctx ops) (StateIr.exec ctx (hostile ctx path) ops mem l).1
          (exec ctx (hostile ctx path) ops x l).1) ∧
    (¬ SafeOps ctx ops m →
      (StateIr.exec ctx (hostile ctx path) ops mem l).2 ≠
        (exec ctx (hostile ctx path) ops x l).2) := by
  induction ops generalizing m mem x l with
  | nil => exact ⟨fun _ => h,fun hlose => absurd trivial hlose⟩
  | cons op ops ih =>
    by_cases hclear : m.Clear ctx op
    · have hs := ha.step (hostile ctx path) hclear l
      have hopposed : Opposed (m.after ctx op) _ _ := h.step ha path hclear (l := l) (by
        rintro ⟨a,rfl⟩
        rw [hl ⟨a,mem_cons_self⟩])
      have hrest := ih hopposed hs.2 (by
        rintro ⟨a,hmem⟩
        exact replay_step path op (hl ⟨a,mem_cons_of_mem op hmem⟩))
      simp only [StateIr.exec,Deferred.exec,Marks.scan,hs.1]
      exact ⟨fun hsafe => hrest.1 hsafe.2,fun hlose => hrest.2 fun hops => hlose ⟨hclear,hops⟩⟩
    · refine ⟨fun hsafe => absurd hsafe.1 hclear,fun _ => ?_⟩
      apply exec_ne (hostile ctx path) ops
      · cases op <;> rfl
      · exact h.parted ha _ hclear l

theorem store_not_mem_tail (b : Block) (a : Access) : Op.store a ∉ b.tail := by
  unfold Block.tail
  split <;> simp

variable {F : IrFunction ctx} {post : Nat → Post} {b : Nat}

theorem Opposed.block (h : Opposed m mem x) (ha : Agrees m mem x) (path : List Nat)
    (hl : replay ctx l = x) :
    (SafeBlock F post b m → Opposed (endMarks F post b m)
        (StateIr.exec ctx (hostile ctx path) (F.block b).body mem l).1
        (execBlock F post (hostile ctx path) b x l).1) ∧
    (¬ SafeBlock F post b m →
      (StateIr.exec ctx (hostile ctx path) (F.block b).body mem l).2 ≠
        (execBlock F post (hostile ctx path) b x l).2) := by
  have hops := h.exec ha path (F.block b).ops fun _ => hl
  unfold Block.body execBlock
  rw [stateIr_exec_append]
  dsimp only
  by_cases hsafe : SafeOps ctx (F.block b).ops m
  · have hagrees := ha.exec (hostile ctx path) hsafe l
    have hnone : ∀ l x, (∃ a, Op.store a ∈ (F.block b).tail) → replay ctx l = x :=
      fun _ _ hstore => hstore.elim fun a hmem => absurd hmem (store_not_mem_tail _ a)
    have hflush : Agrees (tailMarks F post b m) _ _ := hagrees.2.flush (post b == .beforeTail)
    have htail := ((hops.1 hsafe).flush hagrees.2 (post b == .beforeTail)).exec hflush path
      (F.block b).tail (hnone (StateIr.exec ctx (hostile ctx path) (F.block b).ops mem l).2 _)
    rw [← hagrees.1]
    refine ⟨fun hblock => ?_,fun hblock => htail.2 fun hrest => hblock ⟨hsafe,hrest⟩⟩
    exact (htail.1 hblock.2).flush (hflush.exec (hostile ctx path) hblock.2 _).2 _
  · refine ⟨fun hblock => absurd hblock.1 hsafe,fun _ => ?_⟩
    apply exec_ne
    · rw [stateIr_exec_length,exec_length]
    · exact hops.2 hsafe

theorem replay_block (hpost : post b = .never) (path : List Nat) (hl : replay ctx l = x) :
    replay ctx (execBlock F post (hostile ctx path) b x l).2 =
      (execBlock F post (hostile ctx path) b x l).1 := by
  rw [execBlock_never hpost]
  exact replay_exec path _ hl

theorem taken_exec (x : Split) (l : List Event) : taken (exec ctx env ops x l).2 = taken l := by
  induction ops generalizing x l with
  | nil => rfl
  | cons op ops ih =>
    simp only [Deferred.exec,ih]
    cases op <;> rfl

theorem taken_execBlock (F : IrFunction ctx) (post : Nat → Post) (env : Env) (b : Nat) (x : Split)
    (l : List Event) : taken (execBlock F post env b x l).2 = taken l := by
  simp [execBlock,taken_exec]

theorem execBlock_suffix (F : IrFunction ctx) (post : Nat → Post) (env : Env) (b : Nat) (x : Split)
    (l : List Event) : l <:+ (execBlock F post env b x l).2 :=
  (exec_suffix env _ x l).trans (exec_suffix env _ _ _)

theorem execBlock_length (F : IrFunction ctx) (post : Nat → Post) (env : Env) (b : Nat) (mem : Mem)
    (x : Split) (l : List Event) :
    (StateIr.exec ctx env (F.block b).body mem l).2.length =
      (execBlock F post env b x l).2.length := by
  simp only [execBlock,stateIr_exec_length,exec_length,Block.body,length_append]
  omega

abbrev Differ (F : IrFunction ctx) (post : Nat → Post) (path : List Nat) (n b : Nat) (mem : Mem)
    (x : Split) (l : List Event) : Prop :=
  walk F.graph (StateIr.machine F (hostile ctx path)) .took (hostile ctx path).branch n b mem l ≠
    walk F.graph (machine F post (hostile ctx path)) .took (hostile ctx path).branch n b x l

section lossyPath
variable {F : IrFunction ctx} {post : Nat → Post} (path : List Nat) {b : Nat} {m : Marks}
  {mem : Mem} {x : Split} {l : List Event}

theorem walk_ne_of_lossyBlock (ha : Agrees m mem x) (ho : Opposed m mem x) (hl : replay ctx l = x)
    (hlose : ¬ SafeBlock F post b m) (n : Nat) : Differ F post path (n+1) b mem x l := by
  apply walk_ne_of_block_ne
  · exact fun b mem l => stateIr_exec_suffix _ _ mem l
  · exact execBlock_suffix F post _
  · exact execBlock_length F post _ b mem x l
  · exact (ho.block ha path hl).2 hlose

theorem walk_ne_of_unsettled (ha : Agrees m mem x) (ho : Opposed m mem x)
    (hl : replay ctx l = x) (hsafe : SafeBlock F post b m) (hleaf : F.graph.leaf b = true)
    (hunsettled : ¬ (endMarks F post b m).Settled ctx) (n : Nat) :
    Differ F post path (n+1) b mem x l := by
  intro heq
  apply hunsettled
  intro s hs
  by_contra hmarks
  apply ((ho.block ha path hl).1 hsafe).base_ne (ha.block (hostile ctx path) hsafe l).2 hmarks
  rw [walk_leaf hleaf,walk_leaf hleaf,Prod.mk.injEq,Option.some.injEq] at heq
  have hstate := congrFun heq.2 s
  simpa [StateIr.machine,machine,visible,hs] using hstate

theorem walk_ne_of_lossy (hpost : ∀ b, F.graph.leaf b = false → post b = .never)
    {rest : List Nat} (ha : Agrees m mem x) (ho : Opposed m mem x) (hl : replay ctx l = x)
    (hrest : path.drop (taken l) = rest) (hlose : ¬ SafeAlong F post rest b m) :
    Differ F post path (rest.length+1) b mem x l := by
  induction rest generalizing b m mem x l with
  | nil =>
    rw [safeAlong_nil] at hlose
    by_cases hsafe : SafeBlock F post b m
    · simp only [hsafe,true_and,Classical.not_imp] at hlose
      exact walk_ne_of_unsettled path ha ho hl hsafe hlose.1 hlose.2 _
    · exact walk_ne_of_lossyBlock path ha ho hl hsafe _
  | cons k rest ih =>
    rw [safeAlong_cons] at hlose
    by_cases hsafe : SafeBlock F post b m
    · cases hleaf : F.graph.leaf b with
      | true =>
        simp only [hsafe,hleaf,true_and,true_implies,Bool.true_eq_false,false_implies,
          and_true] at hlose
        exact walk_ne_of_unsettled path ha ho hl hsafe hleaf hlose _
      | false =>
        simp only [hsafe,hleaf,true_and,Bool.false_eq_true,false_implies,true_implies] at hlose
        have hblock := ha.block (hostile ctx path) hsafe l
        have htaken : taken (execBlock F post (hostile ctx path) b x l).2 = taken l :=
          taken_execBlock F post _ b x l
        have hk : (hostile ctx path).branch (execBlock F post (hostile ctx path) b x l).2 = k := by
          have hget : path[taken l]? = some k := by
            rw [← List.head?_drop,hrest,List.head?_cons]
          show path.getD (taken _) 0 = k
          rw [htaken,getD_eq_getElem?_getD,hget,Option.getD_some]
        have hnext := ih (l := .took k :: (execBlock F post (hostile ctx path) b x l).2)
          hblock.2 ((ho.block ha path hl).1 hsafe) (replay_block (hpost b hleaf) path hl) (by
            rw [taken,htaken,← drop_drop,hrest]
            rfl) hlose
        intro heq
        apply hnext
        rw [length_cons,walk_next hleaf,walk_next hleaf] at heq
        simp only [StateIr.machine,machine,hblock.1,hk] at heq
        exact heq
    · exact walk_ne_of_lossyBlock path ha ho hl hsafe _

end lossyPath

theorem Opposed.none : Opposed .none (fun _ => 0) ⟨fun _ => 0,fun _ => 0⟩ := by
  constructor <;> simp [Marks.none]

/-- Deferred write-back shows what the program shows exactly when no path loses a store. -/
theorem observe_eq_iff_safe (F : IrFunction ctx)
    (hpost : ∀ b, F.graph.leaf b = false → post b = .never) :
    (∀ env mem fuel, observe F post env mem fuel = StateIr.observe F env mem fuel) ↔
      Safe F post := by
  constructor
  · intro hall path
    by_contra hlose
    apply walk_ne_of_lossy path hpost (l := []) (Agrees.refl fun _ => 0) Opposed.none rfl rfl hlose
    exact (hall (hostile ctx path) (fun _ => 0) (path.length+1)).symm
  · intro hsafe env mem fuel
    exact (observe_eq_of_safe hsafe env mem fuel).symm

def ReadsWhatItWrites (F : IrFunction ctx) : Prop :=
  ∀ b callee args, Op.call callee args ∈ (F.block b).body →
    ∀ s, ctx.mayWrite callee args s = true → ctx.mayRead callee args s = true

theorem lost_after (hm : ∀ s, m.lost s = 0) (hop : ∀ callee args, op = .call callee args →
      ∀ s, ctx.mayWrite callee args s = true → ctx.mayRead callee args s = true) :
    m.Clear ctx op ∧ ∀ s, (m.after ctx op).lost s = 0 := by
  cases op with
  | load a => exact ⟨by simp [Marks.Clear,Mem.get,hm,Lib.Bits.extract],hm⟩
  | store a =>
    refine ⟨trivial,fun s => ?_⟩
    apply Nat.eq_of_testBit_eq
    intro i
    simp [Marks.after,testBit_put,hm]
  | call callee args =>
    refine ⟨fun s _ => hm s,fun s => ?_⟩
    cases hw : ctx.mayWrite callee args s <;> simp_all [Marks.after]

theorem safeOps_of_reads (hF : ReadsWhatItWrites F) {ops : List Op}
    (hops : ∀ op ∈ ops, op ∈ (F.block b).body) (hm : ∀ s, m.lost s = 0) :
    SafeOps ctx ops m ∧ ∀ s, (m.scan ctx ops).lost s = 0 := by
  induction ops generalizing m with
  | nil => exact ⟨trivial,hm⟩
  | cons op ops ih =>
    have hop : m.Clear ctx op ∧ ∀ s, (m.after ctx op).lost s = 0 :=
      lost_after hm fun callee args heq => hF b callee args (heq ▸ hops op mem_cons_self)
    have hrest := ih (fun op' hmem => hops op' (mem_cons_of_mem op hmem)) hop.2
    exact ⟨⟨hop.1,hrest.1⟩,hrest.2⟩

theorem safeBlock_of_reads (hF : ReadsWhatItWrites F) (post : Nat → Post) (b : Nat)
    (hm : ∀ s, m.lost s = 0) : SafeBlock F post b m ∧ ∀ s, (endMarks F post b m).lost s = 0 := by
  have hops := safeOps_of_reads hF (b := b)
    (fun op (hop : op ∈ (F.block b).ops) => mem_append_left _ hop) hm
  have htail := safeOps_of_reads hF (b := b) (m := tailMarks F post b m)
    (fun op (hop : op ∈ (F.block b).tail) => mem_append_right _ hop) hops.2
  exact ⟨⟨hops.1,htail.1⟩,htail.2⟩

theorem pend_scan_tail (b : Block) (hs : m.pend s = 0) : (m.scan ctx b.tail).pend s = 0 := by
  unfold Block.tail
  split
  · exact hs
  · simp [Marks.scan,Marks.after,hs]

theorem pend_endMarks (hpost : post b ≠ .never) (m : Marks) (hs : ctx.scratch s = false) :
    (endMarks F post b m).pend s = 0 := by
  cases hb : post b with
  | never => exact absurd hb hpost
  | beforeTail =>
    have hlate : (Post.beforeTail == Post.atEnd) = false := rfl
    have hearly : (Post.beforeTail == Post.beforeTail) = true := rfl
    simp only [endMarks,tailMarks,hb,hlate,hearly,Marks.flush,Bool.false_and,
      Bool.false_eq_true,if_false]
    exact pend_scan_tail _ (by simp [hs])
  | atEnd => simp [endMarks,Marks.flush,hb,hs]

theorem safe_of_reads (hF : ReadsWhatItWrites F)
    (hpost : ∀ b, F.graph.leaf b = true → post b ≠ .never) : Safe F post := by
  have hall : ∀ (path : List Nat) (b : Nat) (m : Marks), (∀ s, m.lost s = 0) →
      SafeAlong F post path b m := by
    intro path
    have hset : ∀ b (m : Marks), (∀ s, m.lost s = 0) → F.graph.leaf b = true →
        (endMarks F post b m).Settled ctx := by
      intro b m hm hleaf s hs
      exact ⟨pend_endMarks (hpost b hleaf) m hs,(safeBlock_of_reads hF post b hm).2 s⟩
    induction path with
    | nil =>
      intro b m hm
      exact safeAlong_nil.mpr ⟨(safeBlock_of_reads hF post b hm).1,hset b m hm⟩
    | cons k path ih =>
      intro b m hm
      have hblock := safeBlock_of_reads hF post b hm
      exact (safeAlong_cons k path).mpr ⟨hblock.1,hset b m hm,fun _ => ih _ _ hblock.2⟩
  exact fun path => hall path _ _ fun _ => rfl

def flagContext (reads : Bool) : Context where
  size _ := 32
  helperFuncs name := if name = "helper_shld" then
    some ⟨if reads then [8] else [],[8],false,false⟩ else none
  scratch _ := false

def storeOne : Env where
  value _ _ := 1
  helper _ _ _ _ := (fun _ => 0,fun _ => 0)
  branch _ := 0

end Hqemu.Llvm.Deferred
