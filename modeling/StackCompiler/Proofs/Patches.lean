import StackCompiler.Proofs.Bisimulation
import StackCompiler.Proofs.Labels
import StackCompiler.Proofs.Renaming

/-! Code that is rewritten piece by piece.
A patch is a stretch of code with what replaces it. Control may enter a routine's code only at
labels, and these lie between the pieces, so the two codes correspond where one piece ends and the
next begins. -/
namespace StackCompiler

namespace Code

def Has (code : Code) (pc : Nat) (part : Code) : Prop := part <+: code.drop pc

variable {code : Code} {pc : Nat}

@[simp] theorem has_nil (code : Code) (pc : Nat) : code.Has pc [] := List.nil_prefix

theorem has_cons {i : Instr} {part : Code} :
    code.Has pc (i :: part) ↔ code[pc]? = some i ∧ code.Has (pc + 1) part := by
  unfold Has
  by_cases hlt : pc < code.length
  · rw [List.drop_eq_getElem_cons hlt,List.cons_prefix_cons,List.getElem?_eq_getElem hlt,
      Option.some.injEq,eq_comm]
  · have hnone := List.getElem?_eq_none (Nat.le_of_not_lt hlt)
    rw [List.drop_eq_nil_of_le (Nat.le_of_not_lt hlt),hnone]
    simp

theorem has_append {a b : Code} :
    code.Has pc (a ++ b) ↔ code.Has pc a ∧ code.Has (pc + a.length) b := by
  induction a generalizing pc with
  | nil => simp
  | cons i a ih =>
    rw [List.cons_append,has_cons,has_cons,ih,and_assoc,List.length_cons,Nat.add_assoc,
      Nat.add_comm 1]

theorem has_split (a part b : Code) : Code.Has (a ++ (part ++ b)) a.length part := by
  rw [Has,List.drop_left]
  exact List.prefix_append _ _

theorem Has.mem {part : Code} (h : code.Has pc part) {n : Nat} (hle : pc ≤ n)
    (hlt : n < pc + part.length) {i : Instr} (hi : code[n]? = some i) : i ∈ part := by
  obtain ⟨rest,hrest⟩ := h
  have hget : (part ++ rest)[n - pc]? = some i := by
    rw [hrest,List.getElem?_drop,Nat.add_sub_cancel' hle]
    exact hi
  rw [List.getElem?_append_left (by omega)] at hget
  exact List.mem_of_getElem? hget

end Code

structure Patch where
  source : Code
  target : Code

namespace Patch

def sources (ps : List Patch) : Code := ps.flatMap source

def targets (ps : List Patch) : Code := ps.flatMap target

@[simp] theorem sources_nil : sources [] = [] := rfl

@[simp] theorem targets_nil : targets [] = [] := rfl

@[simp] theorem sources_cons (p : Patch) (ps : List Patch) :
    sources (p :: ps) = p.source ++ sources ps := rfl

@[simp] theorem targets_cons (p : Patch) (ps : List Patch) :
    targets (p :: ps) = p.target ++ targets ps := rfl

@[simp] theorem sources_append (ps qs : List Patch) :
    sources (ps ++ qs) = sources ps ++ sources qs := List.flatMap_append

@[simp] theorem targets_append (ps qs : List Patch) :
    targets (ps ++ qs) = targets ps ++ targets qs := List.flatMap_append

theorem length_sources {ps : List Patch} (h : ∀ p ∈ ps, p.source.length = 1) :
    (sources ps).length = ps.length := by
  induction ps with
  | nil => rfl
  | cons p ps ih =>
    rw [sources_cons,List.length_append,h p List.mem_cons_self,
      ih fun q hq => h q (List.mem_cons_of_mem p hq),List.length_cons,Nat.add_comm]

def keep (i : Instr) : Patch := ⟨[i],[i]⟩

def Carries (p : Patch) : Prop :=
  (∃ l, p = keep (.label l)) ∨ p.source.labels = [] ∧ p.target.labels = []

theorem carries_keep (i : Instr) : (keep i).Carries := by
  cases i with
  | label l => exact .inl ⟨l,rfl⟩
  | _ => exact .inr ⟨rfl,rfl⟩

theorem Carries.labels_eq {p : Patch} (h : p.Carries) : p.target.labels = p.source.labels := by
  rcases h with ⟨l,rfl⟩ | ⟨hs,ht⟩
  · rfl
  · rw [hs,ht]

theorem labels_targets {ps : List Patch} (h : ∀ p ∈ ps, p.Carries) :
    (targets ps).labels = (sources ps).labels := by
  induction ps with
  | nil => rfl
  | cons p ps ih =>
    rw [targets_cons,sources_cons,Code.labels_append,Code.labels_append,
      (h p List.mem_cons_self).labels_eq,ih fun q hq => h q (List.mem_cons_of_mem p hq)]

end Patch

namespace Machine

theorem target?_append (l : Label) (a b : Code) : target? l (a ++ b) =
    match target? l b with
    | some n => some (a.length + n)
    | none => target? l a := by
  induction a with
  | nil => cases h : target? l b <;> simp [h,target?]
  | cons i a ih =>
    rw [List.cons_append,target?,ih]
    cases target? l b with
    | none => rfl
    | some n => simp [Nat.add_right_comm]

theorem mem_labels_of_target? {l : Label} {code : Code} {n : Nat} (h : target? l code = some n) :
    l ∈ code.labels :=
  List.mem_filterMap.mpr ⟨_,List.mem_of_getElem? (getElem?_of_target? h),rfl⟩

theorem target?_of_labels {l : Label} {code : Code} (h : code.labels = []) :
    target? l code = none := by
  cases hn : target? l code with
  | none => rfl
  | some n =>
    have hl := mem_labels_of_target? hn
    rw [h] at hl
    cases hl

/-- A label leads to the same place between the pieces on both sides. -/
theorem target?_patches {ps : List Patch} (h : ∀ p ∈ ps, p.Carries) (l : Label) :
    (target? l (Patch.sources ps) = none ∧ target? l (Patch.targets ps) = none) ∨
      ∃ before after, ps = before ++ Patch.keep (.label l) :: after ∧
        target? l (Patch.sources ps) = some (Patch.sources before).length ∧
        target? l (Patch.targets ps) = some (Patch.targets before).length := by
  induction ps with
  | nil => exact .inl ⟨rfl,rfl⟩
  | cons p ps ih =>
    simp only [Patch.sources_cons,Patch.targets_cons,target?_append]
    rcases ih fun q hq => h q (List.mem_cons_of_mem p hq) with
      ⟨hs,ht⟩ | ⟨before,after,rfl,hs,ht⟩
    · rw [hs,ht]
      simp only
      rcases h p List.mem_cons_self with ⟨m,rfl⟩ | ⟨hps,hpt⟩
      · by_cases hm : m = l
        · subst hm
          exact .inr ⟨[],ps,rfl,by simp [Patch.keep,target?],by simp [Patch.keep,target?]⟩
        · exact .inl ⟨by simp [Patch.keep,target?,hm],by simp [Patch.keep,target?,hm]⟩
      · exact .inl ⟨target?_of_labels hps,target?_of_labels hpt⟩
    · rw [hs,ht]
      exact .inr ⟨p :: before,after,rfl,by simp,by simp⟩

theorem target?_of_nodup {code : Code} (h : code.labels.Nodup) {n : Nat} {l : Label}
    (hn : code[n]? = some (.label l)) : target? l code = some n := by
  induction code generalizing n with
  | nil => cases hn
  | cons i rest ih =>
    rw [target?]
    cases n with
    | zero =>
      obtain rfl : i = .label l := Option.some.inj hn
      have hout : l ∉ Code.labels rest := (List.nodup_cons.mp h).1
      cases ht : target? l rest with
      | none => simp
      | some m => exact absurd (mem_labels_of_target? ht) hout
    | succ n =>
      have hrest : (Code.labels rest).Nodup := by
        rw [Code.labels_cons] at h
        exact (List.nodup_append.mp h).2.1
      rw [ih hrest hn]

/-- Both sides stand before the same pieces, which may be entered there, with the same values. -/
structure Between (ps : List Patch) (Enters : List Patch → Prop) (c c' : Config) : Prop where
  place : ∃ before after, ps = before ++ after ∧ Enters after ∧
    c.pc = (Patch.sources before).length ∧ c'.pc = (Patch.targets before).length
  stack : c'.stack = c.stack
  slots : c'.slots = c.slots

section simulation

variable {o : Operations} {ps before after : List Patch} {Enters : List Patch → Prop}
  {excused : Prop} {rank : Config → Nat} {c c' : Config} {s : Store}

theorem follows_jump (hps : ∀ p ∈ ps, p.Carries) (hlabel : ∀ l after, Enters (Patch.keep (.label l) :: after))
    {n m : Nat} {l : Label} {d d' : Config} {t : Store}
    (hd : Steps o (Patch.sources ps) n c s d t) (hd' : Steps o (Patch.targets ps) m c' s d' t)
    {stack : List Value}
    (hstep : step o (Patch.sources ps) d t = follow (Patch.sources ps) d t (.jump l stack))
    (hstep' : step o (Patch.targets ps) d' t = follow (Patch.targets ps) d' t (.jump l stack))
    (hslots : d'.slots = d.slots) :
    Follows o (Patch.sources ps) (Patch.targets ps) (fun c c' _ => Between ps Enters c c') id excused
      rank c c' s := by
  simp only [follow] at hstep hstep'
  rcases target?_patches hps l with ⟨hs,ht⟩ | ⟨before,after,hsplit,hs,ht⟩
  · rw [hs] at hstep
    rw [ht] at hstep'
    exact follows_stop hd hd' hstep hstep' rfl hslots.symm trivial
  · rw [hs] at hstep
    rw [ht] at hstep'
    exact .inl ⟨n,_,t,m + 1,_,hd.trans (.one hstep),hd'.trans (.one hstep'),
      ⟨⟨before,_,hsplit,hlabel l after,rfl,rfl⟩,rfl,hslots⟩,.inl (Nat.succ_pos m)⟩

theorem follows_through {p : Patch} {n m : Nat} {d d' : Config} {t : Store}
    (hsplit : ps = before ++ p :: after) (henters : Enters after)
    (hpc : c.pc = (Patch.sources before).length) (hpc' : c'.pc = (Patch.targets before).length)
    (hd : Steps o (Patch.sources ps) (n + 1) c s d t) (hd' : Steps o (Patch.targets ps) m c' s d' t)
    (hend : d.pc = c.pc + p.source.length) (hend' : d'.pc = c'.pc + p.target.length)
    (hne : 0 < p.source.length) (hstack : d'.stack = d.stack) (hslots : d'.slots = d.slots) :
    Follows o (Patch.sources ps) (Patch.targets ps) (fun c c' _ => Between ps Enters c c') id excused
      (fun c => (Patch.sources ps).length - c.pc) c c' s := by
  have hlength : (Patch.sources ps).length =
      c.pc + p.source.length + (Patch.sources after).length := by
    rw [hsplit,hpc]
    simp [Nat.add_assoc]
  have hrank : (Patch.sources ps).length - d.pc < (Patch.sources ps).length - c.pc := by omega
  refine .inl ⟨n,d,t,m,d',hd,hd',⟨⟨before ++ [p],after,by simp [hsplit],henters,?_,?_⟩,hstack,hslots⟩,
    .inr hrank⟩
  · simp [hend,hpc]
  · simp [hend',hpc']

theorem follows_keep {i : Instr} (hps : ∀ p ∈ ps, p.Carries)
    (hlabel : ∀ l after, Enters (Patch.keep (.label l) :: after))
    (hsplit : ps = before ++ Patch.keep i :: after) (hnext : i.endsFlow = false → Enters after)
    (hpc : c.pc = (Patch.sources before).length) (hpc' : c'.pc = (Patch.targets before).length)
    (hstack : c'.stack = c.stack) (hslots : c'.slots = c.slots) :
    Follows o (Patch.sources ps) (Patch.targets ps) (fun c c' _ => Between ps Enters c c') id excused
      rank c c' s := by
  have hsource : (Patch.sources ps)[c.pc]? = some i := by
    rw [hsplit,hpc]
    simp [Patch.keep]
  have htarget : (Patch.targets ps)[c'.pc]? = some i := by
    rw [hsplit,hpc']
    simp [Patch.keep]
  have hstep := step_of_getElem? (o := o) (s := s) hsource
  have hstep' := step_of_getElem? (o := o) (s := s) htarget
  rw [hstack,hslots] at hstep'
  have hfits := exec_fits o c.slots s c.stack i
  have hplace : i.endsFlow = false → ∃ b a, ps = b ++ a ∧ Enters a ∧
      c.pc + 1 = (Patch.sources b).length ∧ c'.pc + 1 = (Patch.targets b).length := by
    intro hflow
    refine ⟨before ++ [Patch.keep i],after,by simp [hsplit],hnext hflow,?_,?_⟩
    · simp [hpc,Patch.keep]
    · simp [hpc',Patch.keep]
  cases he : exec o c.slots s c.stack i with
  | go stack assigned t =>
    rw [he] at hstep hstep' hfits
    exact follows_step hstep hstep' ⟨hplace hfits.2,rfl,by rw [hslots]⟩
  | jump l stack =>
    rw [he] at hstep hstep'
    exact follows_jump hps hlabel (.refl c s) (.refl c' s) hstep hstep' hslots
  | call target args returns stack =>
    rw [he] at hstep hstep' hfits
    obtain ⟨n,rfl⟩ := hfits
    refine follows_now hstep hstep' rfl hslots.symm ⟨rfl,rfl,rfl,?_⟩
    intro v d _ hd
    obtain ⟨hpc,hsame,_⟩ := Config.resume_eq_some hd
    refine ⟨_,Config.resume_elsewhere hd (c'.pc + 1) c'.slots,?_,rfl,hslots.trans hsame.symm⟩
    rw [hpc]
    exact hplace rfl
  | ret v =>
    rw [he] at hstep hstep'
    exact follows_now hstep hstep' rfl hslots.symm rfl
  | trap | underflow =>
    rw [he] at hstep hstep'
    exact follows_now hstep hstep' rfl hslots.symm trivial

theorem follows_end {R : Config → Config → Store → Prop}
    (hpc : c.pc = (Patch.sources ps).length) (hpc' : c'.pc = (Patch.targets ps).length)
    (hslots : c'.slots = c.slots) :
    Follows o (Patch.sources ps) (Patch.targets ps) R id excused rank c c' s := by
  have hstep : step o (Patch.sources ps) c s = .trap := by simp [step,hpc]
  have hstep' : step o (Patch.targets ps) c' s = .trap := by simp [step,hpc']
  exact follows_now hstep hstep' rfl hslots.symm trivial

theorem follows_patches (excused : Prop)
    (h : ∀ before p after c c' s, ps = before ++ p :: after → Enters (p :: after) →
      c.pc = (Patch.sources before).length → c'.pc = (Patch.targets before).length →
      c'.stack = c.stack → c'.slots = c.slots →
      Follows o (Patch.sources ps) (Patch.targets ps) (fun c c' _ => Between ps Enters c c') id
        excused (fun c => (Patch.sources ps).length - c.pc) c c' s)
    (hc : Between ps Enters c c') :
    Follows o (Patch.sources ps) (Patch.targets ps) (fun c c' _ => Between ps Enters c c') id excused
      (fun c => (Patch.sources ps).length - c.pc) c c' s := by
  obtain ⟨⟨before,after,hsplit,henters,hbefore,hbefore'⟩,hstack,hslots⟩ := hc
  cases after with
  | nil =>
    rw [List.append_nil] at hsplit
    exact follows_end (hsplit ▸ hbefore) (hsplit ▸ hbefore') hslots
  | cons p after => exact h before p after c c' s hsplit henters hbefore hbefore' hstack hslots

theorem between_start (hstart : Enters ps) (hpc : c.pc = 0) : Between ps Enters c c :=
  ⟨⟨[],ps,rfl,hstart,hpc,hpc⟩,rfl,rfl⟩

end simulation

end Machine
end StackCompiler
