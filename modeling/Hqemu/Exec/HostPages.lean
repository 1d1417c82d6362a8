import Hqemu.Exec.AddressSpace

/-! How host pages and target pages of different sizes lie over each other, and what the kernel's
`mprotect` leaves alone. -/
namespace Hqemu.Exec.UserPages

open Option Lib.Run Links

variable {n : Nat} {cfg : Config} {s next : UserPages n} {tb : TbId}

def writable (hostProt : Nat → Option Nat) (hostPage : Nat) : Bool :=
  (hostProt hostPage).any fun prot => prot &&& pageWrite != 0

variable {p : Nat}

theorem div_le_of_lt {a size whole : Nat} (hpos : 0 < size) (hdvd : size ∣ whole)
    (h : a < (p+1) * size) : a/whole ≤ p*size/whole := by
  obtain ⟨j,rfl⟩ := hdvd
  rw [← Nat.div_div_eq_div_mul,← Nat.div_div_eq_div_mul,Nat.mul_div_cancel _ hpos]
  apply Nat.div_le_div_right
  exact Nat.le_of_lt_succ (Nat.div_lt_of_lt_mul (by rwa [Nat.mul_comm]))

variable {hostPage : Nat}

theorem overlaps_host (hpaged : cfg.Paged) (h : overlaps cfg hostPage p = true) :
    hostPage*cfg.realHostPageSize/cfg.hostPageSize = p*cfg.targetPageSize/cfg.hostPageSize := by
  simp only [overlaps,Bool.and_eq_true,decide_eq_true_eq] at h
  exact le_antisymm (div_le_of_lt (targetPageSize_pos cfg) hpaged.target h.1)
    (div_le_of_lt hpaged.realPos hpaged.real h.2)

theorem inside_host (hpaged : cfg.Paged) (x hostPage : Nat) :
    x*cfg.hostPageSize/cfg.realHostPageSize ≤ hostPage ∧
        hostPage*cfg.realHostPageSize < (x+1) * cfg.hostPageSize ↔
      hostPage*cfg.realHostPageSize/cfg.hostPageSize = x := by
  obtain ⟨k,hk⟩ := hpaged.real
  have hreal := hpaged.realPos
  have hpos := hpaged.hostPos
  have hfirst : x*cfg.hostPageSize/cfg.realHostPageSize = x*k := by
    rw [hk,Nat.mul_left_comm,Nat.mul_div_cancel_left _ hreal]
  have hle : x*k ≤ hostPage ↔ x*cfg.hostPageSize ≤ hostPage*cfg.realHostPageSize := by
    rw [hk,Nat.mul_left_comm,Nat.mul_comm hostPage]
    exact (Nat.mul_le_mul_left_iff hreal).symm
  rw [hfirst,hle,Nat.div_eq_iff hpos,Nat.add_mul]
  omega

theorem mprotect_host_of_ne (hpaged : cfg.Paged) (granted : Nat → Bool)
    (hostProt : Nat → Option Nat) (prot : Nat) {x : Nat}
    (h : hostPage*cfg.realHostPageSize/cfg.hostPageSize ≠ x) :
    Links.mprotect cfg granted hostProt (x*cfg.hostPageSize)
      (x*cfg.hostPageSize+cfg.hostPageSize) prot hostPage = hostProt hostPage := by
  have hstop : x*cfg.hostPageSize+cfg.hostPageSize = (x+1) * cfg.hostPageSize := by
    rw [Nat.add_mul,Nat.one_mul]
  apply if_neg
  rw [hstop]
  exact fun hin => h ((inside_host hpaged x hostPage).mp ⟨hin.1,hin.2.1⟩)

theorem mprotect_isSome (cfg : Config) (granted : Nat → Bool) (hostProt : Nat → Option Nat)
    (start stop prot hostPage : Nat) :
    (Links.mprotect cfg granted hostProt start stop prot hostPage).isSome =
      (hostProt hostPage).isSome := by
  unfold Links.mprotect
  split
  · rename_i h
    obtain ⟨hfirst,-,hall⟩ := h
    rw [List.all_eq_true] at hall
    have hmem : hostPage-start/cfg.realHostPageSize ∈
        List.range (hostPage+1-start/cfg.realHostPageSize) := by
      rw [List.mem_range]
      omega
    have := hall _ hmem
    rw [Nat.add_sub_cancel' hfirst,Bool.and_eq_true] at this
    rw [this.2]
    rfl
  · rfl

def willing : Kernel := ⟨fun _ => true,true,fun _ => some 0⟩

def anonymousPage (start prot : Nat) : MmapRequest where
  start := start
  len := 0x1000
  prot := prot
  fixed := true
  anonymous := true
  shared := false
  offset := 0
  data := []
  fstat := true
  found := none

def modifiedCode : List (Action 1) :=
  [.mmap (anonymousPage 0x1000 7) willing,.genCode 0 ⟨0x1000,0,0⟩ 0 (some smallBlock),
    .writeFault 0x1004 none]

theorem smallConfig_paged : smallConfig.Paged := ⟨by decide,by decide,by decide,by decide⟩

end Hqemu.Exec.UserPages
