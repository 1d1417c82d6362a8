import Mathlib.Data.BitVec
import Hqemu.Llvm.GuestMemory

/-! Folded reads agree with the reads they replace as long as no write comes between a read and the
place to which it is moved. -/
namespace Hqemu.Llvm.GuestMemory

open Function List Option

open Lib.Bytes (Mem load store Covers)

variable {w : Nat}

open State

theorem ReadsAt.lt {seg : List Op} {e i b : Nat} {a₀ : Access} (h : ReadsAt seg e b a₀)
    (he : e < i+1) (hne : ∀ a, ¬ ReadsAt seg i b a) : e < i := by
  by_contra hge
  have heq : e = i := by omega
  exact hne a₀ (heq ▸ h)

theorem ReadsAt.not_other {seg : List Op} {i b c : Nat} {a : Access} (h : ReadsAt seg i c a)
    (hb : b ≠ c) : ∀ a', ¬ ReadsAt seg i b a' := by
  intro a' h'
  have hsame := h.1.symm.trans h'.1
  cases hsame
  exact hb (h'.2.symm.trans h.2)

section Simulation
variable {guestBase : Int} {seg : List Op} {env : Env w} {i : Nat} {x y : State w}

structure Rel (guestBase : Int) (seg : List Op) (i : Nat) (x y : State w) : Prop where
  mem : y.mem = x.mem
  bases : y.bases = x.bases
  reads : y.reads = x.reads
  wide : ∀ b E, folded guestBase seg b = some E → ∀ e a₀, e < i → ReadsAt seg e b a₀ →
    ∃ B, x.bases b = some B ∧ ∀ q r, i ≤ q → ReadsAt seg q b r →
      (y.wide b >>> ((r.off-E.min) * 8).toNat) % 2^(8*r.size) =
        load x.mem (B+BitVec.ofInt w r.off) r.size

theorem Rel.base (h : Rel guestBase seg i x y) (b : Nat) : y.base env b = x.base env b := by
  rw [State.base,State.base,h.bases,h.reads]

variable {B : BitVec w}

theorem State.base_of_bases {x : State w} {b : Nat} (h : x.bases b = some B) :
    x.base env b = B := by
  rw [State.base,h,getD_some]

theorem State.define_bases_of_some {x : State w} {b c : Nat} (h : x.bases b = some B) :
    (x.define env c).bases b = some B := by
  unfold define
  by_cases hbc : b = c
  · subst hbc
    simp [base_of_bases h]
  · simp [hbc,h]

variable {a : Access}

theorem covers_iff {r : Access} {j : Nat} :
    Covers (B+BitVec.ofInt w a.off) a.size (B+BitVec.ofInt w r.off + BitVec.ofNat w j) ↔
      Covers (BitVec.ofInt w a.off) a.size (BitVec.ofInt w r.off + BitVec.ofNat w j) := by
  have hsub : B+BitVec.ofInt w r.off + BitVec.ofNat w j - (B+BitVec.ofInt w a.off) =
      BitVec.ofInt w r.off + BitVec.ofNat w j - BitVec.ofInt w a.off := by
    rw [BitVec.add_assoc,add_sub_add_left_eq_sub]
  rw [Covers,hsub,Covers]

theorem Rel.write (h : Rel guestBase seg i x y) (hsafe : Safe w guestBase seg)
    (hi : WritesAt seg i a) :
    Rel guestBase seg (i+1) (stepOp env i x (.write a)) (stepOp env i y (.write a)) := by
  constructor
  · simp [stepOp,State.addr,h.base,h.mem,h.reads]
  · simp [stepOp,define,h.base,h.bases]
  · exact h.reads
  · intro b E hE e a₀ he hread
    have hlt : e < i := by
      apply hread.lt he
      intro a' hr
      have hboth := hr.1.symm.trans hi
      cases hboth
    obtain ⟨B,hB,hwide⟩ := h.wide b E hE e a₀ hlt hread
    refine ⟨B,define_bases_of_some hB,?_⟩
    intro q r hq hr
    obtain ⟨hbase,hmeet⟩ := hsafe b (folded_eq_some hE).1 e i q a₀ a r hlt hq hread hi hr
    have hkeep := hwide q r (by omega) hr
    have haddr : x.addr env a.base a.off = B+BitVec.ofInt w a.off := by
      rw [State.addr,hbase,base_of_bases hB]
    have hload : load (store x.mem (x.addr env a.base a.off) a.size (env.value i x.reads))
        (B+BitVec.ofInt w r.off) r.size = load x.mem (B+BitVec.ofInt w r.off) r.size := by
      apply Lib.Bytes.load_store
      intro j hj hcover
      rw [haddr,covers_iff] at hcover
      exact hmeet ⟨j,hj,hcover⟩
    exact hkeep.trans hload.symm

theorem Rel.read (h : Rel guestBase seg i x y) (hi : ReadsAt seg i a.base a)
    (hnone : folded guestBase seg a.base = none) :
    Rel guestBase seg (i+1) (stepOp env i x (.read a)) (stepOp env i y (.read a)) := by
  constructor
  · exact h.mem
  · simp [stepOp,define,h.base,h.bases]
  · simp [stepOp,State.addr,h.base,h.mem,h.reads]
  · intro b E hE e a₀ he hread
    have hb : b ≠ a.base := by
      rintro rfl
      rw [hnone] at hE
      cases hE
    have hlt := hread.lt he (hi.not_other hb)
    obtain ⟨B,hB,hwide⟩ := h.wide b E hE e a₀ hlt hread
    exact ⟨B,define_bases_of_some hB,fun q r hq hr => hwide q r (by omega) hr⟩

variable {E : Envelop}

theorem wide_part (m : Mem w) (B : BitVec w) {r : Access}
    (h : E.min ≤ r.off ∧ r.off+r.size ≤ E.max) :
    (load m (B+BitVec.ofInt w E.min) (E.max-E.min).toNat >>>
        ((r.off-E.min) * 8).toNat) % 2^(8*r.size) =
      load m (B+BitVec.ofInt w r.off) r.size := by
  have hshift : ((r.off-E.min) * 8).toNat = 8*(r.off-E.min).toNat := by omega
  have haddr : B+BitVec.ofInt w E.min + BitVec.ofNat w (r.off-E.min).toNat =
      B+BitVec.ofInt w r.off := by
    have hcast : BitVec.ofNat w (r.off-E.min).toNat = BitVec.ofInt w (r.off-E.min) := by
      rw [← BitVec.ofInt_natCast,Int.toNat_of_nonneg (by omega)]
    rw [BitVec.add_assoc,hcast,← BitVec.ofInt_add,add_sub_cancel]
  rw [hshift,Lib.Bytes.load_part m _ (by omega),haddr]

theorem execCode_place (hE : folded guestBase seg a.base = some E)
    (hplace : insertPos seg a.base E = some i) :
    execCode env y (foldOp guestBase seg i (.read a)) =
      stepCode env (stepCode env y (.wide a.base E.min (E.max-E.min).toNat))
        (.part a.base ((a.off-E.min) * 8).toNat (8*a.size)) := by
  simp only [foldOp,hE]
  rw [if_pos hplace]
  rfl

theorem execCode_later (hE : folded guestBase seg a.base = some E)
    (hplace : insertPos seg a.base E ≠ some i) :
    execCode env y (foldOp guestBase seg i (.read a)) =
      stepCode env y (.part a.base ((a.off-E.min) * 8).toNat (8*a.size)) := by
  simp only [foldOp,hE]
  rw [if_neg hplace]
  rfl

theorem Rel.place (h : Rel guestBase seg i x y) (hi : ReadsAt seg i a.base a)
    (hE : folded guestBase seg a.base = some E) (hIs : IsEnvelop seg a.base E i) :
    Rel guestBase seg (i+1) (stepOp env i x (.read a))
      (execCode env y (foldOp guestBase seg i (.read a))) := by
  rw [execCode_place hE hIs.place]
  constructor
  · exact h.mem
  · simp [stepOp,stepCode,define,h.base,h.bases]
  · have hpart := wide_part x.mem (x.base env a.base) (hIs.inside i a hi)
    simp only [stepOp,stepCode,State.addr,h.base,h.mem,update_self]
    rw [hpart]
    simp [define,h.reads]
  · intro b E' hE' e a₀ he hread
    by_cases hb : b = a.base
    · subst hb
      rw [hE,some.injEq] at hE'
      subst hE'
      refine ⟨x.base env a.base,by simp [stepOp,define],?_⟩
      intro q r hq hr
      have hpart := wide_part x.mem (x.base env a.base) (hIs.inside q r hr)
      simp only [stepOp,stepCode,State.addr,h.base,h.mem,update_self]
      exact hpart
    · have hlt := hread.lt he (hi.not_other hb)
      obtain ⟨B,hB,hwide⟩ := h.wide b E' hE' e a₀ hlt hread
      refine ⟨B,define_bases_of_some hB,?_⟩
      intro q r hq hr
      simp only [stepOp,stepCode,update_of_ne hb]
      exact hwide q r (by omega) hr

theorem Rel.later (h : Rel guestBase seg i x y) {e : Nat} (hi : ReadsAt seg i a.base a)
    (hE : folded guestBase seg a.base = some E) (hIs : IsEnvelop seg a.base E e) (hne : e ≠ i) :
    Rel guestBase seg (i+1) (stepOp env i x (.read a))
      (execCode env y (foldOp guestBase seg i (.read a))) := by
  have hplace : insertPos seg a.base E ≠ some i := by
    rw [hIs.place]
    simpa using hne
  have hlt : e < i := by
    have := hIs.first i a hi
    omega
  obtain ⟨a₀,hread₀⟩ := hIs.reads
  obtain ⟨B,hB,hwide⟩ := h.wide a.base E hE e a₀ hlt hread₀
  have hbase : x.base env a.base = B := base_of_bases hB
  rw [execCode_later hE hplace]
  constructor
  · exact h.mem
  · simp only [stepOp,stepCode,define,hbase,h.bases]
    exact (update_eq_self_iff.mpr hB.symm).symm
  · simp only [stepOp,stepCode,State.addr,hbase,h.reads]
    rw [hwide i a (Nat.le_refl i) hi]
  · intro b E' hE' e' a₁ he hread
    by_cases hb : b = a.base
    · subst hb
      rw [hE,some.injEq] at hE'
      subst hE'
      exact ⟨B,define_bases_of_some hB,fun q r hq hr => hwide q r (by omega) hr⟩
    · have hlt' := hread.lt he (hi.not_other hb)
      obtain ⟨B',hB',hwide'⟩ := h.wide b E' hE' e' a₁ hlt' hread
      exact ⟨B',define_bases_of_some hB',fun q r hq hr => hwide' q r (by omega) hr⟩

theorem Rel.step (h : Rel guestBase seg i x y) (hsafe : Safe w guestBase seg) {o : Op}
    (hi : seg[i]? = some o) :
    Rel guestBase seg (i+1) (stepOp env i x o) (execCode env y (foldOp guestBase seg i o)) := by
  cases o with
  | write a => exact h.write hsafe hi
  | read a =>
    cases hE : folded guestBase seg a.base with
    | none =>
      have hcode : foldOp guestBase seg i (.read a) = [.op i (.read a)] := by
        simp [foldOp,hE]
      rw [hcode]
      exact h.read ⟨hi,rfl⟩ hE
    | some E =>
      obtain ⟨-,e,hIs⟩ := folded_eq_some hE
      by_cases hei : e = i
      · subst hei
        exact h.place ⟨hi,rfl⟩ hE hIs
      · exact h.later ⟨hi,rfl⟩ hE hIs hei

theorem execCode_append (l l' : List Code) :
    execCode env y (l ++ l') = execCode env (execCode env y l) l' := foldl_append

theorem Rel.run {pre rest : List Op} (hsafe : Safe w guestBase seg) (hseg : seg = pre ++ rest)
    (h : Rel guestBase seg pre.length x y) :
    Rel guestBase seg seg.length (exec env pre.length x rest)
      (execCode env y (foldFrom guestBase seg pre.length rest)) := by
  induction rest generalizing pre x y with
  | nil =>
    have hlen : seg.length = pre.length := by simp [hseg]
    rw [hlen]
    exact h
  | cons o rest ih =>
    have hget : seg[pre.length]? = some o := by simp [hseg]
    have hs : Rel guestBase seg (pre ++ [o]).length (stepOp env pre.length x o)
        (execCode env y (foldOp guestBase seg pre.length o)) := by
      rw [length_append]
      exact h.step hsafe hget
    have hnext := ih (by simp [hseg]) hs
    rw [length_append] at hnext
    rw [foldFrom,execCode_append]
    exact hnext

theorem rel_start (m : Mem w) : Rel guestBase seg 0 (start m) (start m) := by
  constructor
  · rfl
  · rfl
  · rfl
  · intro b E hE e a₀ he
    omega

theorem preserves_of_safe (hsafe : Safe w guestBase seg) : Preserves w guestBase seg := by
  intro env m
  have hstart : Rel guestBase seg ([] : List Op).length (start m) (start m) := rel_start m
  have hrel : Rel guestBase seg seg.length (exec env 0 (start m) seg)
      (execCode env (start m) (combindContiguousMemory guestBase seg)) :=
    Rel.run hsafe (nil_append seg).symm hstart
  exact ⟨hrel.reads,hrel.mem⟩

end Simulation

section Opposed
variable {guestBase : Int} {seg : List Op} {b e : Nat} {E : Envelop}

theorem exec_append (env : Env w) (l l' : List Op) (id : Nat) (x : State w) :
    exec env id x (l ++ l') = exec env (id+l.length) (exec env id x l) l' := by
  induction l generalizing id x with
  | nil => rfl
  | cons o l ih =>
    rw [cons_append,exec,ih,exec,length_cons]
    congr 1
    omega

theorem foldFrom_append (l l' : List Op) (id : Nat) :
    foldFrom guestBase seg id (l ++ l') =
      foldFrom guestBase seg id l ++ foldFrom guestBase seg (id+l.length) l' := by
  induction l generalizing id with
  | nil => rfl
  | cons o l ih =>
    have hid : id+1+l.length = id+(l.length+1) := by omega
    rw [cons_append,foldFrom,ih,foldFrom,length_cons,append_assoc,hid]

def Op.isRead : Op → Bool
  | .read _ => true
  | .write _ => false

theorem exec_reads (env : Env w) (l : List Op) (id : Nat) (x : State w) :
    ∃ new, new.length = l.countP Op.isRead ∧ (exec env id x l).reads = new ++ x.reads := by
  induction l generalizing id x with
  | nil => exact ⟨[],rfl,rfl⟩
  | cons o l ih =>
    obtain ⟨new,hlen,hreads⟩ := ih (id+1) (stepOp env id x o)
    cases o with
    | read a =>
      refine ⟨new ++ [load x.mem (x.addr env a.base a.off) a.size],?_,?_⟩
      · simp [countP_cons,Op.isRead,hlen]
      · rw [exec,hreads]
        simp [stepOp]
    | write a =>
      refine ⟨new,?_,?_⟩
      · simp [Op.isRead,hlen]
      · rw [exec,hreads]
        rfl

theorem foldOp_read (guestBase : Int) (seg : List Op) (env : Env w) (id : Nat) (a : Access)
    (y : State w) :
    ∃ v, (execCode env y (foldOp guestBase seg id (.read a))).reads = v :: y.reads ∧
      (execCode env y (foldOp guestBase seg id (.read a))).mem = y.mem ∧
      ((execCode env y (foldOp guestBase seg id (.read a))).bases = y.bases ∨
        (execCode env y (foldOp guestBase seg id (.read a))).bases =
          (y.define env a.base).bases) := by
  cases hE : folded guestBase seg a.base with
  | none =>
    have hcode : foldOp guestBase seg id (.read a) = [.op id (.read a)] := by
      simp [foldOp,hE]
    rw [hcode]
    exact ⟨_,rfl,rfl,.inr rfl⟩
  | some E =>
    by_cases hplace : insertPos seg a.base E = some id
    · rw [execCode_place hE hplace]
      exact ⟨_,rfl,rfl,.inr rfl⟩
    · rw [execCode_later hE hplace]
      exact ⟨_,rfl,rfl,.inl rfl⟩

theorem execCode_reads (guestBase : Int) (seg : List Op) (env : Env w) (l : List Op) (id : Nat)
    (y : State w) :
    ∃ new, new.length = l.countP Op.isRead ∧
      (execCode env y (foldFrom guestBase seg id l)).reads = new ++ y.reads := by
  induction l generalizing id y with
  | nil => exact ⟨[],rfl,rfl⟩
  | cons o l ih =>
    obtain ⟨new,hlen,hreads⟩ := ih (id+1) (execCode env y (foldOp guestBase seg id o))
    rw [foldFrom,execCode_append,hreads]
    cases o with
    | read a =>
      obtain ⟨v,hv,-⟩ := foldOp_read guestBase seg env id a y
      refine ⟨new ++ [v],?_,?_⟩
      · simp [countP_cons,Op.isRead,hlen]
      · rw [hv]
        simp
    | write a =>
      refine ⟨new,?_,rfl⟩
      simp [Op.isRead,hlen]

theorem Preserves.upto (h : Preserves w guestBase seg) (q : Nat) (env : Env w) (m : Mem w) :
    (execCode env (start m) (foldFrom guestBase seg 0 (seg.take q))).reads =
      (exec env 0 (start m) (seg.take q)).reads := by
  have hall := (h env m).1
  have hsplit : seg = seg.take q ++ seg.drop q := (take_append_drop q seg).symm
  have hexec := exec_append env (seg.take q) (seg.drop q) 0 (start m)
  have hfold : foldFrom guestBase seg 0 (seg.take q ++ seg.drop q) = _ :=
    foldFrom_append (seg.take q) (seg.drop q) 0
  rw [← hsplit] at hexec hfold
  rw [combindContiguousMemory,hfold,execCode_append,hexec] at hall
  obtain ⟨new,hlen,hreads⟩ := exec_reads env (seg.drop q) (0+(seg.take q).length)
    (exec env 0 (start m) (seg.take q))
  obtain ⟨new',hlen',hreads'⟩ := execCode_reads guestBase seg env (seg.drop q)
    (0+(seg.take q).length)
    (execCode env (start m) (foldFrom guestBase seg 0 (seg.take q)))
  rw [hreads,hreads'] at hall
  exact (append_inj hall (hlen'.trans hlen.symm)).2

def opposing (seg : List Op) (B : Nat → BitVec w) (e : Nat) : Env w where
  base c _ := B c
  value id _ :=
    if id ≤ e then 0
    else match seg[id]? with
      | some (.write a) => Nat.ofDigits 256 (List.replicate a.size 1)
      | _ => 0

variable {k : Nat}

theorem ones_byte {n : Nat} (hk : k < n) :
    BitVec.ofNat 8 (Nat.ofDigits 256 (List.replicate n 1) / 256^k) ≠ 0 := by
  have hlt : ∀ x ∈ List.replicate n 1, x < 256 := by
    intro x hx
    rw [eq_of_mem_replicate hx]
    omega
  obtain ⟨d,hd⟩ : ∃ d, n-k = d+1 := ⟨n-k-1,by omega⟩
  rw [Nat.ofDigits_div_pow_eq_ofDigits_drop k (by omega) _ hlt,drop_replicate,hd,
    replicate_succ,Nat.ofDigits_cons]
  intro hzero
  have hnat := congrArg BitVec.toNat hzero
  simp at hnat

structure Opposed (seg : List Op) (B : Nat → BitVec w) (b e k : Nat) (x y : State w) : Prop where
  mem : y.mem = x.mem
  basesOrig : ∀ c A, x.bases c = some A → A = B c
  basesFold : ∀ c A, y.bases c = some A → A = B c
  zero : k ≤ e → ∀ z, x.mem z = 0
  hit : ∀ p a, e < p → p < k → WritesAt seg p a →
    ∀ z, Covers (B a.base + BitVec.ofInt w a.off) a.size z → x.mem z ≠ 0
  wide : e < k → y.wide b = 0

variable {B : Nat → BitVec w} {x : State w}

theorem base_opposing (h : ∀ c A, x.bases c = some A → A = B c) (c : Nat) :
    x.base (opposing seg B e) c = B c := by
  unfold State.base
  cases hc : x.bases c with
  | none => rfl
  | some A => exact h c A hc

theorem define_opposing (h : ∀ c A, x.bases c = some A → A = B c) (d : Nat) :
    ∀ c A, (x.define (opposing seg B e) d).bases c = some A → A = B c := by
  intro c A hA
  by_cases hcode : c = d
  · subst hcode
    simp only [define,update_self,some.injEq] at hA
    rw [← hA,base_opposing h]
  · simp only [define,update_of_ne hcode] at hA
    exact h c A hA

variable {y : State w} {a : Access}

theorem Opposed.write (h : Opposed seg B b e k x y) (hk : WritesAt seg k a) (hne : k ≠ e) :
    Opposed seg B b e (k+1) (stepOp (opposing seg B e) k x (.write a))
      (stepOp (opposing seg B e) k y (.write a)) := by
  constructor
  · simp only [stepOp,State.addr,base_opposing h.basesOrig,base_opposing h.basesFold,h.mem]
    rfl
  · exact define_opposing h.basesOrig a.base
  · exact define_opposing h.basesFold a.base
  · intro hkeep z
    have hvalue : (opposing seg B e).value k x.reads = 0 := if_pos (by omega)
    simp only [stepOp,hvalue]
    by_cases hcover : Covers (x.addr (opposing seg B e) a.base a.off) a.size z
    · rw [Lib.Bytes.store_of_covers hcover]
      simp
    · rw [Lib.Bytes.store_of_not_covers hcover]
      exact h.zero (by omega) z
  · intro p a' hp hpk hw z hz
    have hvalue : (opposing seg B e).value k x.reads =
        Nat.ofDigits 256 (List.replicate a.size 1) := by
      simp only [opposing]
      rw [if_neg (by omega),hk]
    have haddr : x.addr (opposing seg B e) a.base a.off = B a.base + BitVec.ofInt w a.off := by
      rw [State.addr,base_opposing h.basesOrig]
    simp only [stepOp,hvalue,haddr]
    by_cases hcover : Covers (B a.base + BitVec.ofInt w a.off) a.size z
    · rw [Lib.Bytes.store_of_covers hcover]
      exact ones_byte hcover
    · rw [Lib.Bytes.store_of_not_covers hcover]
      have hlt : p < k := by
        by_contra hge
        have heq : p = k := by omega
        subst heq
        have hsame := hw.symm.trans hk
        cases hsame
        exact hcover hz
      exact h.hit p a' hp hlt hw z hz
  · intro hek
    exact h.wide (by omega)

theorem Opposed.read (h : Opposed seg B b e k x y) (hE : folded guestBase seg b = some E)
    (hIs : IsEnvelop seg b E e) (hk : seg[k]? = some (.read a)) :
    Opposed seg B b e (k+1) (stepOp (opposing seg B e) k x (.read a))
      (execCode (opposing seg B e) y (foldOp guestBase seg k (.read a))) := by
  obtain ⟨v,-,hmem,hbases⟩ := foldOp_read guestBase seg (opposing seg B e) k a y
  constructor
  · rw [hmem]
    exact h.mem
  · exact define_opposing h.basesOrig a.base
  · intro c A hA
    rcases hbases with hb | hb
    · rw [hb] at hA
      exact h.basesFold c A hA
    · rw [hb] at hA
      exact define_opposing h.basesFold a.base c A hA
  · intro hke z
    exact h.zero (by omega) z
  · intro p a' hp hpk hw z hz
    have hlt : p < k := by
      by_contra hge
      have heq : p = k := by omega
      subst heq
      have hsame := hw.symm.trans hk
      cases hsame
    exact h.hit p a' hp hlt hw z hz
  · intro hek
    by_cases hb : a.base = b
    · subst hb
      by_cases hke : e = k
      · subst hke
        rw [execCode_place hE hIs.place]
        simp only [stepCode,update_self]
        rw [Lib.Bytes.load_eq_zero]
        intro i _
        rw [h.mem]
        exact h.zero (Nat.le_refl e) _
      · have hplace : insertPos seg a.base E ≠ some k := by
          rw [hIs.place]
          simpa using hke
        rw [execCode_later hE hplace]
        exact h.wide (by omega)
    · have hke : e ≠ k := by
        rintro rfl
        obtain ⟨a₀,hread⟩ := hIs.reads
        have hsame := hread.1.symm.trans hk
        cases hsame
        exact hb hread.2
      have hkeep : (execCode (opposing seg B e) y (foldOp guestBase seg k (.read a))).wide b =
          y.wide b := by
        cases hfold : folded guestBase seg a.base with
        | none =>
          simp only [foldOp,hfold]
          rfl
        | some E' =>
          by_cases hplace : insertPos seg a.base E' = some k
          · rw [execCode_place hfold hplace]
            simp [stepCode,define,update_of_ne (Ne.symm hb)]
          · rw [execCode_later hfold hplace]
            rfl
      rw [hkeep]
      exact h.wide (by omega)

theorem Opposed.run (hE : folded guestBase seg b = some E) (hIs : IsEnvelop seg b E e)
    {pre rest : List Op} (hseg : ∃ post, seg = pre ++ (rest ++ post))
    (h : Opposed seg B b e pre.length x y) :
    Opposed seg B b e (pre ++ rest).length (exec (opposing seg B e) pre.length x rest)
      (execCode (opposing seg B e) y (foldFrom guestBase seg pre.length rest)) := by
  induction rest generalizing pre x y with
  | nil =>
    rw [append_nil]
    exact h
  | cons o rest ih =>
    obtain ⟨post,hpost⟩ := hseg
    have hget : seg[pre.length]? = some o := by simp [hpost]
    have hs : Opposed seg B b e (pre ++ [o]).length (stepOp (opposing seg B e) pre.length x o)
        (execCode (opposing seg B e) y (foldOp guestBase seg pre.length o)) := by
      rw [length_append]
      cases o with
      | read a => exact h.read hE hIs hget
      | write a =>
        have hne : pre.length ≠ e := by
          rintro rfl
          obtain ⟨a₀,hread⟩ := hIs.reads
          have hsame := hread.1.symm.trans hget
          cases hsame
        exact h.write hget hne
    have hlen : (pre ++ [o]).length = pre.length+1 := by simp
    have hnext := ih ⟨post,by simp [hpost]⟩ hs
    rw [hlen,append_assoc,singleton_append] at hnext
    rw [foldFrom,execCode_append]
    exact hnext

theorem opposed_start (B : Nat → BitVec w) :
    Opposed seg B b e ([] : List Op).length (start fun _ => 0) (start fun _ => 0) := by
  constructor
  · rfl
  · intro c A hA
    cases hA
  · intro c A hA
    cases hA
  · intro _ z
    rfl
  · intro p a hp hp0
    simp at hp0
  · intro h
    simp at h

theorem exists_bases {r : Access} (h : a.base = r.base → Meets w a r) :
    ∃ (B : Nat → BitVec w) (j : Nat), j < r.size ∧ Covers (B a.base + BitVec.ofInt w a.off) a.size
        (B r.base + BitVec.ofInt w r.off + BitVec.ofNat w j) := by
  by_cases hbase : a.base = r.base
  · obtain ⟨j,hj,hcover⟩ := h hbase
    refine ⟨fun _ => 0,j,hj,?_⟩
    rw [covers_iff]
    exact hcover
  · refine ⟨Function.update (fun _ => 0) a.base (BitVec.ofInt w r.off - BitVec.ofInt w a.off),
      0,r.pos,?_⟩
    rw [update_self,update_of_ne (Ne.symm hbase)]
    simp [Covers,a.pos]

theorem safe_of_preserves (h : Preserves w guestBase seg) : Safe w guestBase seg := by
  intro b hfold e₁ p q a₀ a r hepoch hpq hread₀ hw hr
  by_contra hnot
  obtain ⟨E,hE⟩ := hfold.folded
  obtain ⟨-,e,hIs⟩ := folded_eq_some hE
  have hee := hIs.first e₁ a₀ hread₀
  obtain ⟨hget,rfl⟩ := hr
  obtain ⟨B,j,hj,hcover⟩ : ∃ (B : Nat → BitVec w) (j : Nat), j < r.size ∧
      Covers (B a.base + BitVec.ofInt w a.off) a.size
        (B r.base + BitVec.ofInt w r.off + BitVec.ofNat w j) := by
    apply exists_bases
    intro hbase
    by_contra hmeet
    exact hnot ⟨hbase,hmeet⟩
  have hq : q < seg.length := (List.getElem?_eq_some_iff.mp hget).1
  have hinv := Opposed.run hE hIs ⟨seg.drop q,(take_append_drop q seg).symm⟩ (opposed_start B)
  simp only [nil_append,length_nil,length_take,Nat.min_eq_left hq.le] at hinv
  have hupto := h.upto (q+1) (opposing seg B e) fun _ => 0
  rw [take_add_one,hget,toList_some,exec_append,foldFrom_append,execCode_append] at hupto
  simp only [length_take,Nat.min_eq_left hq.le,Nat.zero_add] at hupto
  generalize exec (opposing seg B e) 0 (start fun _ => 0) (seg.take q) = x at hinv hupto
  generalize execCode (opposing seg B e) (start fun _ => 0)
    (foldFrom guestBase seg 0 (seg.take q)) = y at hinv hupto
  have hplace : insertPos seg r.base E ≠ some q := by
    rw [hIs.place]
    simp only [ne_eq,some.injEq]
    omega
  have hzero := hinv.wide (by omega)
  simp only [foldFrom,append_nil,exec,execCode_later hE hplace,stepOp,stepCode,hzero,
    Nat.zero_shiftRight,Nat.zero_mod,List.cons.injEq] at hupto
  have hload := Lib.Bytes.load_eq_zero.mp hupto.1.symm j hj
  rw [State.addr,base_opposing hinv.basesOrig] at hload
  exact hinv.hit p a (by omega) hpq hw _ hcover hload

end Opposed

/-- Folding keeps every read and the final memory exactly if nothing between two folded reads may
write what the later one reads. -/
theorem combindContiguousMemory_preserves_iff (w : Nat) (guestBase : Int) (seg : List Op) :
    Preserves w guestBase seg ↔ Safe w guestBase seg :=
  ⟨safe_of_preserves,preserves_of_safe⟩

def rewritten : List Op :=
  [.read ⟨0,0,4,Nat.succ_pos 3⟩,.write ⟨0,4,4,Nat.succ_pos 3⟩,
    .read ⟨0,4,4,Nat.succ_pos 3⟩]

theorem combindContiguousMemory_reads_stale : ¬ Preserves 64 0 rewritten := by
  intro h
  have hreads := (h ⟨fun _ _ => 0,fun _ _ => 1⟩ fun _ => 0).1
  revert hreads
  decide

end Hqemu.Llvm.GuestMemory
