import Hqemu.Exec.UserSteps

/-! The guest's address space without its code: the flags of the pages and the memory of the host.
-/
namespace Hqemu.Exec

open Option Links Paging

structure AddressSpace extends HostMem where
  flags : Nat → Nat

namespace AddressSpace

def pageSetFlags (cfg : Config) (a : AddressSpace) (start stop flags : Nat) :
    Option AddressSpace :=
  if cfg.abi stop ≤ start then none
  else
    some { a with
      flags := fun p => if inRange cfg start stop p then storedFlags flags else a.flags p }

instance : Paging AddressSpace where
  hostMem := toHostMem
  setHost a m := { a with toHostMem := m }
  pageGetFlags := flags
  pageSetFlags := pageSetFlags

end AddressSpace

namespace AddressSpace

variable {cfg : Config} {host : Kernel} {a b : AddressSpace}

def SetsRange (cfg : Config) (a b : AddressSpace) (start stop value : Nat) : Prop :=
  ∀ p, b.flags p = if inRange cfg start stop p then storedFlags value else a.flags p

theorem setsRange_pageSetFlags {start stop flags : Nat}
    (h : Paging.pageSetFlags cfg a start stop flags = some b) :
    SetsRange cfg a b start stop flags ∧ b.toHostMem = a.toHostMem := by
  change AddressSpace.pageSetFlags cfg a start stop flags = some b at h
  unfold AddressSpace.pageSetFlags at h
  split at h
  · cases h
  · cases h
    exact ⟨fun _ => rfl,rfl⟩

theorem perform_some {calls : List HostCall} {start stop flags : Nat} {done : Bool}
    (h : perform cfg host a calls start stop flags = some (b,done)) :
    (b.toHostMem,done) = runCalls cfg host calls a.toHostMem ∧
      if done then SetsRange cfg a b start stop flags else b.flags = a.flags := by
  unfold perform at h
  split at h
  · rename_i m hm
    cases h
    exact ⟨hm.symm,rfl⟩
  · rename_i m hm
    obtain ⟨b',hb',hb⟩ := map_eq_some_iff.mp h
    cases hb
    obtain ⟨hsets,hhost⟩ := setsRange_pageSetFlags hb'
    rw [hhost]
    exact ⟨hm.symm,hsets⟩

end AddressSpace

section Simulation

variable {σ τ β γ : Type}

def Matches (R : σ → τ → Prop) (x : Option (σ × β)) (y : Option (τ × β)) : Prop :=
  ∀ s r, x = some (s,r) → ∃ t, y = some (t,r) ∧ R s t

variable {R : σ → τ → Prop} {s : σ} {t : τ} {x : Option (σ × β)} {y : Option (τ × β)}

theorem matches_some (hR : R s t) (r : β) : Matches R (some (s,r)) (some (t,r)) := by
  intro s' r' hs
  cases hs
  exact ⟨t,rfl,hR⟩

theorem Matches.bind {f : σ × β → Option (σ × γ)} {g : τ × β → Option (τ × γ)} (h : Matches R x y)
    (hfg : ∀ s t r, R s t → Matches R (f (s,r)) (g (t,r))) : Matches R (x.bind f) (y.bind g) := by
  intro s' r' hs
  obtain ⟨⟨mid,r⟩,hmid,hs⟩ := bind_eq_some_iff.mp hs
  obtain ⟨mid',hmid',hR⟩ := h mid r hmid
  obtain ⟨t',ht',hR'⟩ := hfg mid mid' r hR s' r' hs
  exact ⟨t',by rw [hmid',bind_some,ht'],hR'⟩

theorem Matches.map {f : σ × β → σ × γ} {g : τ × β → τ × γ} (h : Matches R x y)
    (hfg : ∀ s t r, R s t → R (f (s,r)).1 (g (t,r)).1 ∧ (f (s,r)).2 = (g (t,r)).2) :
    Matches R (x.map f) (y.map g) := by
  intro s' r' hs
  obtain ⟨⟨mid,r⟩,hmid,hs⟩ := map_eq_some_iff.mp hs
  obtain ⟨mid',hmid',hR⟩ := h mid r hmid
  obtain ⟨hfirst,hsound⟩ := hfg mid mid' r hR
  rw [hs] at hfirst hsound
  refine ⟨(g (mid',r)).1,?_,hfirst⟩
  rw [hmid',map_some]
  exact congrArg some (Prod.ext rfl hsound.symm)

variable [Paging σ] [Paging τ] {cfg : Config} {host : Kernel}

structure Simulates (cfg : Config) (R : σ → τ → Prop) : Prop where
  hostMem : ∀ {s t}, R s t → hostMem s = hostMem t
  flags : ∀ {s t}, R s t → pageGetFlags s = pageGetFlags t
  setHost : ∀ {s t}, R s t → ∀ m, R (setHost s m) (setHost t m)
  setFlags : ∀ {s t s' start stop flags}, R s t →
    pageSetFlags cfg s start stop flags = some s' →
      ∃ t', pageSetFlags cfg t start stop flags = some t' ∧ R s' t'

section

variable (h : Simulates cfg R)
include h

section

variable (hR : R s t)
include hR

theorem Simulates.perform (calls : List HostCall) (start stop flags : Nat) :
    Matches R (perform cfg host s calls start stop flags)
      (perform cfg host t calls start stop flags) := by
  unfold Exec.perform
  rw [h.hostMem hR]
  split
  · exact matches_some (h.setHost hR _) _
  · intro s' r hs
    obtain ⟨s'',hs'',hs⟩ := map_eq_some_iff.mp hs
    cases hs
    obtain ⟨t',ht',hR'⟩ := h.setFlags (h.setHost hR _) hs''
    exact ⟨t',by rw [ht',map_some],hR'⟩

theorem Simulates.targetMprotect (start len prot : Nat) :
    Matches R (targetMprotect cfg host s start len prot)
      (targetMprotect cfg host t start len prot) := by
  unfold Exec.targetMprotect
  rw [h.flags hR]
  dsimp only
  split
  · exact matches_some hR _
  split
  · exact matches_some hR _
  · exact h.perform hR _ _ _ _

theorem Simulates.mmapFixed (start len prot : Nat) (shared : Bool) (file : Nat → Option FileMap) :
    Matches R (mmapFixed cfg host s start len prot shared file)
      (mmapFixed cfg host t start len prot shared file) := by
  unfold Exec.mmapFixed
  rw [h.flags hR]
  exact (h.perform hR _ _ _ _).map fun _ _ _ hR => ⟨hR,rfl⟩

theorem Simulates.mmapRead (start len prot : Nat) (file : FileMap) :
    Matches R (mmapRead cfg host s start len prot file)
      (mmapRead cfg host t start len prot file) := by
  unfold Exec.mmapRead Exec.mmapAnonymous
  apply Matches.bind
  · dsimp only
    split
    · exact matches_some hR _
    split
    · exact matches_some hR _
    · exact h.mmapFixed hR _ _ _ _ _
  · intro s t r hR
    dsimp only
    split
    · unfold readFile
      rw [h.hostMem hR]
      split
      · exact matches_some (h.setHost hR _) _
      · split
        · exact (h.targetMprotect (h.setHost hR _) _ _ _).map fun _ _ _ hR => ⟨hR,rfl⟩
        · exact matches_some (h.setHost hR _) _
    · exact matches_some hR _

theorem Simulates.targetMmap (request : MmapRequest) :
    Matches R (targetMmap cfg host s request) (targetMmap cfg host t request) := by
  unfold Exec.targetMmap
  dsimp only
  split
  · exact matches_some hR _
  split
  · exact matches_some hR _
  split
  · exact matches_some hR _
  split
  · split
    · exact matches_some hR _
    · exact (h.perform hR _ _ _ _).map fun _ _ _ hR => ⟨hR,rfl⟩
  split
  · exact matches_some hR _
  split
  · split
    · exact matches_some hR _
    · exact h.mmapRead hR _ _ _ _
  · exact h.mmapFixed hR _ _ _ _ _

theorem Simulates.targetMunmap (start len : Nat) :
    Matches R (targetMunmap cfg host s start len) (targetMunmap cfg host t start len) := by
  unfold Exec.targetMunmap
  rw [h.flags hR]
  dsimp only
  split
  · exact matches_some hR _
  apply (h.perform hR _ _ _ _).map
  intro s t done hR
  rw [h.hostMem hR]
  split
  · exact ⟨h.setHost hR _,rfl⟩
  · exact ⟨hR,rfl⟩

theorem Simulates.targetMremap (old oldSize newSize : Nat) (mode : MremapMode) :
    Matches R (targetMremap cfg host s old oldSize newSize mode)
      (targetMremap cfg host t old oldSize newSize mode) := by
  unfold Exec.targetMremap
  rw [h.hostMem hR,h.flags hR]
  split
  · exact matches_some (h.setHost hR _) _
  · unfold moveFlags
    rw [h.flags (h.setHost hR _)]
    intro s' r hs
    simp only [bind_eq_some_iff,map_eq_some_iff] at hs
    obtain ⟨s₁,hs₁,s₂,hs₂,hs⟩ := hs
    cases hs
    obtain ⟨t₁,ht₁,hR₁⟩ := h.setFlags (h.setHost hR _) hs₁
    obtain ⟨t₂,ht₂,hR₂⟩ := h.setFlags hR₁ hs₂
    exact ⟨t₂,by simp only [ht₁,ht₂,bind_some,map_some],hR₂⟩

end

end

end Simulation

namespace UserPages

variable {n : Nat} {cfg : Config} {s next : UserPages n} {tb : TbId}

def view (s : UserPages n) : AddressSpace :=
  { s.hostMem with flags := pageFlags s.links }

structure Tracks (s : UserPages n) (a : AddressSpace) : Prop where
  hostMem : s.hostMem = a.toHostMem
  flags : pageFlags s.links = a.flags

theorem tracks_view (s : UserPages n) : Tracks s s.view := ⟨rfl,rfl⟩

theorem inRange_iff (cfg : Config) (start stop p : Nat) :
    inRange cfg start stop p = true ↔ InPages cfg start stop p := by
  simp [inRange,InPages]

theorem simulates_tracks (n : Nat) (cfg : Config) :
    Simulates cfg (Tracks : UserPages n → AddressSpace → Prop) where
  hostMem h := h.hostMem
  flags h := h.flags
  setHost h m := ⟨rfl,h.flags⟩
  setFlags {s a next start stop flags} h hnext := by
    have hsets := setsFlags_pageSetFlags hnext
    have hrange : ¬ cfg.abi stop ≤ start := by
      intro hle
      change UserPages.pageSetFlags cfg s start stop flags = some next at hnext
      simp [UserPages.pageSetFlags,hle] at hnext
    refine ⟨_,if_neg hrange,?_,?_⟩
    · have hhost : next.hostMem = s.hostMem := by
        unfold UserPages.hostMem
        rw [hsets.hostProt,hsets.mem,hsets.epoch]
      exact hhost.trans h.hostMem
    · funext p
      dsimp only
      by_cases hp : InPages cfg start stop p
      · rw [hsets.inside p hp,if_pos ((inRange_iff cfg start stop p).mpr hp)]
      · rw [hsets.outside p hp,if_neg (hp ∘ (inRange_iff cfg start stop p).mp),h.flags]

end UserPages

end Hqemu.Exec
