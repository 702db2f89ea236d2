import StackCompiler.Proofs.Optimization

/-! What code refers to, and where it ends.
No pass makes up a variable, a callee or a label: what optimized code refers to beyond its frame, the
code before it referred to. Its slots stay those of its frame, and it still ends with a transfer of
control. -/
namespace StackCompiler

/-- What an instruction refers to: a place, a callee, or a label of its routine. -/
inductive Reference
  | place (p : Place)
  | callee (target : CallTarget) (argc : Nat) (returns : Bool)
  | target (l : Label)

def Instr.reference? : Instr → Option Reference
  | load p | store p | loadElement p _ | storeElement p _ | checkBounds p _ | alloc p _ _ =>
    some (.place p)
  | call target argc returns => some (.callee target argc returns)
  | branch l | branchIf _ l => some (.target l)
  | _ => none

def Reference.renumber (f : Slot → Slot) : Reference → Reference
  | place p => place (p.renumber f)
  | x => x

theorem Instr.reference?_renumber (f : Slot → Slot) (i : Instr) :
    (i.renumber f).reference? = i.reference?.map (Reference.renumber f) := by
  cases i <;> rfl

namespace Code

def references (code : Code) : List Reference := code.filterMap Instr.reference?

@[simp] theorem references_append (a b : Code) :
    (a ++ b).references = a.references ++ b.references :=
  List.filterMap_append

theorem references_renumber (f : Slot → Slot) (code : Code) :
    references (code.map (Instr.renumber f)) = code.references.map (Reference.renumber f) := by
  rw [references,references,List.filterMap_map,List.map_filterMap]
  exact congrArg (fun g => List.filterMap g code) (funext (Instr.reference?_renumber f))

section members

variable {code : Code} {i : Instr}

theorem mem_references_of_place (hi : i ∈ code) {p : Place} (hp : i.place? = some p) :
    .place p ∈ code.references :=
  List.mem_filterMap.mpr ⟨i,hi,by cases i <;> cases hp <;> rfl⟩

theorem mem_references_of_target (hi : i ∈ code) {l : Label} (hl : i.target? = some l) :
    .target l ∈ code.references :=
  List.mem_filterMap.mpr ⟨i,hi,by cases i <;> cases hl <;> rfl⟩

theorem mem_references_of_call {target : CallTarget} {argc : Nat} {returns : Bool}
    (hi : .call target argc returns ∈ code) : .callee target argc returns ∈ code.references :=
  List.mem_filterMap.mpr ⟨_,hi,rfl⟩

theorem exists_place {p : Place} (h : .place p ∈ code.references) :
    ∃ i ∈ code, i.place? = some p := by
  obtain ⟨i,hi,hp⟩ := List.mem_filterMap.mp h
  exact ⟨i,hi,by cases i <;> cases hp <;> rfl⟩

theorem exists_target {l : Label} (h : .target l ∈ code.references) :
    ∃ i ∈ code, i.target? = some l := by
  obtain ⟨i,hi,hl⟩ := List.mem_filterMap.mp h
  exact ⟨i,hi,by cases i <;> cases hl <;> rfl⟩

theorem mem_call {target : CallTarget} {argc : Nat} {returns : Bool}
    (h : .callee target argc returns ∈ code.references) : .call target argc returns ∈ code := by
  obtain ⟨i,hi,hc⟩ := List.mem_filterMap.mp h
  cases i <;> cases hc
  exact hi

theorem mem_labels {l : Label} : l ∈ code.labels ↔ .label l ∈ code := by
  constructor
  · intro h
    obtain ⟨i,hi,hl⟩ := List.mem_filterMap.mp h
    cases i <;> cases hl
    exact hi
  · exact fun h => List.mem_filterMap.mpr ⟨_,h,rfl⟩

theorem Within.slots {size n : Nat} (h : code.Within size)
    (hn : .place (.slot n) ∈ code.references) : n < size := by
  obtain ⟨i,hi,hp⟩ := exists_place hn
  exact h i hi _ hp n rfl

end members

def Ends (code : Code) : Prop := ∃ i, code.getLast? = some i ∧ i.endsFlow = true

theorem Ends.append {a b : Code} (h : b.Ends) : (a ++ b).Ends := by
  obtain ⟨i,hi,hflow⟩ := h
  refine ⟨i,?_,hflow⟩
  rw [List.getLast?_append,hi]
  rfl

end Code

namespace Patch

/-- What the new code refers to, the old code referred to, or it is something known. -/
theorem references_targets (ps : List Patch) (P : Reference → Prop)
    (h : ∀ p ∈ ps, ∀ x ∈ p.target.references, x ∈ p.source.references ∨ P x) :
    ∀ x ∈ (targets ps).references, x ∈ (sources ps).references ∨ P x := by
  induction ps with
  | nil => exact fun x hx => by cases hx
  | cons p ps ih =>
    intro x hx
    rw [targets_cons,Code.references_append,List.mem_append] at hx
    rw [sources_cons,Code.references_append,List.mem_append]
    rcases hx with hx | hx
    · exact (h p List.mem_cons_self x hx).imp .inl id
    · exact (ih (fun q hq => h q (List.mem_cons_of_mem p hq)) x hx).imp .inr id

end Patch

namespace Window

theorem Rule.references {rest window replacement : Code} (h : Rule rest window replacement) :
    ∀ x ∈ replacement.references, x ∈ window.references := by
  cases h <;> simp [Code.references,Instr.reference?]

/-- A window that ends with a transfer of control stands before its label. -/
theorem Rule.rest_ne_nil {rest window replacement : Code} (h : Rule rest window replacement)
    (he : window.Ends) : rest ≠ [] := by
  rintro rfl
  obtain ⟨i,hi,hflow⟩ := he
  cases h with
  | branch h => cases h
  | branchIf h => cases h
  | _ => cases hi; cases hflow

theorem references_segments (code : Code) :
    ∀ x ∈ Code.references ((segments 0 code).map Segment.code).flatten, x ∈ code.references := by
  have h := Patch.references_targets (patches code) (fun _ => False) ?_
  · rw [targets_patches,sources_patches] at h
    simpa using h
  · intro p hp x hx
    obtain ⟨before,after,hsplit⟩ := List.append_of_mem hp
    rcases patches_cases hsplit with ⟨i,rfl⟩ | hrule
    · exact .inl hx
    · exact .inl (hrule.references x hx)

theorem references_reachable (code : Code) :
    ∀ x ∈ (reachable true code).references, x ∈ code.references := by
  have h := Patch.references_targets (reaching true code) (fun _ => False) ?_
  · rw [targets_reaching,sources_reaching] at h
    simpa using h
  · intro p hp x hx
    obtain ⟨before,after,hsplit⟩ := List.append_of_mem hp
    rcases reaching_cases hsplit with ⟨i,rfl,_⟩ | ⟨i,_,rfl⟩
    · exact .inl hx
    · cases hx

theorem ends_segments {n : Nat} {code : Code} (h : Code.Ends (code.drop n)) :
    Code.Ends ((segments n code).map Segment.code).flatten := by
  induction code generalizing n with
  | nil =>
    obtain ⟨i,hi,_⟩ := h
    simp at hi
  | cons i rest ih =>
    cases n with
    | succ n => exact ih h
    | zero =>
      rw [List.drop_zero] at h
      rw [segments]
      split
      · next m replacement hrule =>
        obtain ⟨window,after,hcode,hlen,hr⟩ := rule?_eq_some hrule
        have hm : m - 1 + 1 = m := Nat.sub_add_cancel (rule?_bounds hrule).1
        have hdrop : rest.drop (m - 1) = after := by
          rw [← List.drop_succ_cons (a := i),hm,hcode,← hlen,List.drop_left]
        have hafter : Code.Ends after := by
          obtain ⟨j,hj,hflow⟩ := h
          rw [hcode,List.getLast?_append] at hj
          cases hlast : after.getLast? with
          | some k =>
            rw [hlast] at hj
            exact ⟨k,hlast,by cases hj; exact hflow⟩
          | none =>
            rw [hlast] at hj
            exact absurd (List.getLast?_eq_none_iff.mp hlast) (hr.rest_ne_nil ⟨j,hj,hflow⟩)
        rw [List.map_cons,List.flatten_cons]
        exact Code.Ends.append (ih (hdrop ▸ hafter))
      · rw [List.map_cons,List.flatten_cons]
        cases rest with
        | nil => exact h
        | cons j rest =>
          refine Code.Ends.append (ih ?_)
          obtain ⟨k,hk,hflow⟩ := h
          exact ⟨k,by simpa [List.getLast?_cons_cons] using hk,hflow⟩

/-- Where the last instruction is dropped, the last one that stays ends the flow too. -/
theorem ends_reachable (live : Bool) {code : Code} (h : code.Ends) :
    (reachable live code).Ends ∨ live = false ∧ reachable live code = [] := by
  induction code generalizing live with
  | nil =>
    obtain ⟨i,hi,_⟩ := h
    cases hi
  | cons i rest ih =>
    rw [reachable]
    cases rest with
    | nil =>
      split
      · exact .inl h
      · next hdead =>
        refine .inr ⟨?_,rfl⟩
        simp only [Bool.or_eq_true,not_or,Bool.not_eq_true] at hdead
        exact hdead.1
    | cons j rest =>
      have hrest : Code.Ends (j :: rest) := by
        obtain ⟨k,hk,hflow⟩ := h
        exact ⟨k,by simpa [List.getLast?_cons_cons] using hk,hflow⟩
      split
      · rcases ih (!i.endsFlow) hrest with hends | ⟨hflow,hnil⟩
        · exact .inl (Code.Ends.append (a := [i]) hends)
        · rw [hnil]
          exact .inl ⟨i,rfl,by simpa using hflow⟩
      · next hdead =>
        rcases ih false hrest with hends | ⟨_,hnil⟩
        · exact .inl hends
        · refine .inr ⟨?_,hnil⟩
          simp only [Bool.or_eq_true,not_or,Bool.not_eq_true] at hdead
          exact hdead.1

/-- Code with windows replaced refers to nothing new, keeps its labels and still ends. -/
structure Kept (code code' : Code) : Prop where
  references : ∀ x ∈ code'.references, x ∈ code.references
  labels : code'.labels = code.labels
  ends : code.Ends → code'.Ends

theorem kept_pass (code : Code) :
    Kept code (reachable true ((segments 0 code).map Segment.code).flatten) where
  references x hx := references_segments code x (references_reachable _ x hx)
  labels := Machine.labels_pass code
  ends h := by
    rcases ends_reachable true (ends_segments (n := 0) h) with hends | ⟨hlive,_⟩
    · exact hends
    · cases hlive

theorem kept_passes (n : Nat) (code : Code) : Kept code (passes n code).code := by
  induction n generalizing code with
  | zero => exact ⟨fun _ => id,rfl,id⟩
  | succ n ih =>
    rw [passes]
    simp only
    split
    · exact ⟨fun _ => id,rfl,id⟩
    · have hpass := kept_pass code
      have hrest := ih (reachable true ((segments 0 code).map Segment.code).flatten)
      exact ⟨fun x hx => hpass.references x (hrest.references x hx),hrest.labels.trans hpass.labels,
        fun h => hrest.ends (hpass.ends h)⟩

end Window

namespace RoutineCode

/-- A routine that is complete in itself: it takes the parameters in its first slots, it has the slots
and labels it refers to, and control does not run off its end. -/
structure Complete (params : List Ty) (r : RoutineCode) : Prop where
  indexed : r.frame.Indexed
  count : r.params = params.length
  params : (r.frame.take r.params).map (fun slot => (slot.kind,slot.type)) =
    params.map fun t => (SlotKind.parameter,t)
  slots : ∀ n, .place (.slot n) ∈ r.code.references → n < r.frame.length
  targets : ∀ l, .target l ∈ r.code.references → l ∈ r.code.labels
  ends : r.code.Ends

variable {r : RoutineCode} {params : List Ty}

theorem Complete.shareSlots (h : r.Complete params) (hr : r.Lowered) :
    r.shareSlots.routine.Complete params := by
  obtain ⟨_,_,hplaced,_⟩ := Sharing.placed_allocate hr.indexed hr.params
  have hlowered := hr.shareSlots
  refine ⟨hlowered.indexed,h.count,?_,fun n hn => hlowered.within.slots hn,?_,?_⟩
  · rw [← h.params]
    exact congrArg (List.map fun slot => (slot.kind,slot.type)) hplaced.params
  · intro l hl
    change _ ∈ Code.references (r.code.map _) at hl
    change l ∈ Code.labels (r.code.map _)
    rw [Code.references_renumber] at hl
    rw [Code.labels_renumber]
    obtain ⟨x,hx,he⟩ := List.mem_map.mp hl
    cases x <;> cases he
    exact h.targets l hx
  · obtain ⟨i,hi,hflow⟩ := h.ends
    refine ⟨i.renumber (Sharing.allocate r).rename,?_,?_⟩
    · change (r.code.map _).getLast? = _
      rw [List.getLast?_map,hi]
      rfl
    · rw [← hflow]
      cases i <;> rfl

theorem lookup_lt {f n : Nat} (h : r.cache.lookup f = some n) :
    n < r.reuseValues.routine.frame.length := by
  obtain ⟨j,t,hj,rfl⟩ := mem_cache.mp (mem_of_lookup h)
  obtain ⟨hlt,_⟩ := List.getElem?_eq_some_iff.mp hj
  change _ < (List.foldl _ r.frame _).length
  rw [length_temps]
  exact Nat.add_lt_add_left hlt _

/-- Code with reused values refers to old things or to the new slots. -/
theorem references_reuse (r : RoutineCode) : ∀ x ∈ r.reuseValues.routine.code.references,
    x ∈ r.code.references ∨ ∃ n, x = .place (.slot n) ∧ n < r.reuseValues.routine.frame.length := by
  have h := Patch.references_targets r.reusePatches
    (fun x => ∃ n, x = .place (.slot n) ∧ n < r.reuseValues.routine.frame.length) ?_
  · rwa [targets_reusePatches,sources_reusePatches] at h
  · intro p hp x hx
    obtain ⟨⟨i,pc⟩,_,rfl⟩ := List.mem_map.mp hp
    simp only [Reuse.replace] at hx
    split at hx
    · next y _ =>
      split at hx
      · cases hl : r.cache.lookup y.first with
        | none =>
          rw [hl] at hx
          cases hx
        | some n =>
          rw [hl] at hx
          exact .inr ⟨n,List.mem_singleton.mp hx,lookup_lt hl⟩
      · cases hx
    · split at hx
      · next n hl =>
        rw [show [i,.dup,.store (.slot n)] = [i] ++ [.dup,.store (.slot n)] from rfl,
          Code.references_append,List.mem_append] at hx
        rcases hx with hx | hx
        · exact .inl hx
        · exact .inr ⟨n,List.mem_singleton.mp hx,lookup_lt hl⟩
      · exact .inl hx

theorem ends_reuse (h : r.code.Ends) : r.reuseValues.routine.code.Ends := by
  obtain ⟨i,hi,hflow⟩ := h
  have hget : r.code[r.code.length - 1]? = some i := by
    rw [← List.getLast?_eq_getElem?]
    exact hi
  have hb : i.isBoundary = true := by cases i <;> first | rfl | cases hflow
  have hlast : r.reusePatches.getLast? = some (Patch.keep i) := by
    have hpatch := getElem?_reusePatches hget
    have hlength : r.reusePatches.length = r.code.length := by simp [reusePatches]
    rw [replace_boundary hget hb] at hpatch
    rw [List.getLast?_eq_getElem?,hlength]
    exact hpatch
  rw [← targets_reusePatches,← List.dropLast_append_getLast? _ hlast,Patch.targets_append]
  exact Code.Ends.append ⟨i,rfl,hflow⟩

theorem Complete.reuseValues (h : r.Complete params) (hr : r.Lowered) :
    r.reuseValues.routine.Complete params := by
  have hprefix : r.frame <+: r.reuseValues.routine.frame := prefix_temps _ _
  refine ⟨?_,h.count,?_,?_,?_,ends_reuse h.ends⟩
  · have htemps : ∀ (sources : List (Nat × BaseType)) (frame : Frame), frame.Indexed →
        Frame.Indexed (sources.foldl (fun (f : Frame) p => f.temp (.scalar p.2)) frame) := by
      intro sources
      induction sources with
      | nil => exact fun _ => id
      | cons p rest ih => exact fun frame hf => ih _ ((Frame.grows_temp frame _).indexed hf)
    exact htemps _ _ h.indexed
  · obtain ⟨more,hmore⟩ := hprefix
    rw [← h.params,← hmore]
    change ((r.frame ++ more).take r.params).map _ = _
    rw [List.take_append_of_le_length hr.params]
  · intro n hn
    rcases references_reuse r _ hn with hold | ⟨m,he,hm⟩
    · exact Nat.lt_of_lt_of_le (h.slots n hold) hprefix.length_le
    · cases he
      exact hm
  · intro l hl
    rw [labels_reuse]
    rcases references_reuse r _ hl with hold | ⟨m,he,_⟩
    · exact h.targets l hold
    · cases he

theorem Complete.simplify (h : r.Complete params) :
    ({ r with code := r.code.simplify.code } : RoutineCode).Complete params := by
  have hkept : Window.Kept r.code r.code.simplify.code := Window.kept_passes _ _
  refine ⟨h.indexed,h.count,h.params,fun n hn => h.slots n (hkept.references _ hn),?_,
    hkept.ends h.ends⟩
  intro l hl
  change l ∈ r.code.simplify.code.labels
  rw [hkept.labels]
  exact h.targets l (hkept.references _ hl)

end RoutineCode

namespace Passes

variable {r : RoutineCode} {params : List Ty}

theorem complete_optimize (p : Passes) (h : r.Complete params) (hr : r.Lowered) :
    (p.optimize r).Complete params := by
  have hshared : (p.shared r).Complete params := by
    unfold shared
    split
    · exact h.shareSlots hr
    · exact h
  have hreused : (p.reused r).Complete params := by
    unfold reused
    split
    · exact hshared.reuseValues (p.lowered_shared hr)
    · exact hshared
  simp only [optimize]
  split
  · exact hreused.simplify
  · exact hreused

theorem labels_optimize (p : Passes) (r : RoutineCode) :
    (p.optimize r).code.labels = r.code.labels := by
  have hshared : (p.shared r).code.labels = r.code.labels := by
    unfold shared
    split
    · exact Code.labels_renumber _ _
    · rfl
  have hreused : (p.reused r).code.labels = r.code.labels := by
    unfold reused
    split
    · exact (RoutineCode.labels_reuse _).trans hshared
    · exact hshared
  simp only [optimize]
  split
  · exact (Window.kept_passes _ _).labels.trans hreused
  · exact hreused

theorem references_optimize (p : Passes) {x : Reference} (hx : x ∈ (p.optimize r).code.references)
    (hslot : ∀ n, x ≠ .place (.slot n)) : x ∈ r.code.references := by
  have hshared : x ∈ (p.shared r).code.references → x ∈ r.code.references := by
    unfold shared
    split
    · intro hx
      change x ∈ Code.references (r.code.map _) at hx
      rw [Code.references_renumber] at hx
      obtain ⟨y,hy,rfl⟩ := List.mem_map.mp hx
      cases y with
      | place q =>
        cases q with
        | slot n => exact absurd rfl (hslot _)
        | global name => exact hy
      | callee | target => exact hy
    · exact id
  have hreused : x ∈ (p.reused r).code.references → x ∈ r.code.references := by
    unfold reused
    split
    · intro hx
      rcases RoutineCode.references_reuse _ x hx with hold | ⟨n,rfl,_⟩
      · exact hshared hold
      · exact absurd rfl (hslot n)
    · exact hshared
  simp only [optimize] at hx
  split at hx
  · exact hreused ((Window.kept_passes _ _).references x hx)
  · exact hreused hx

end Passes
end StackCompiler
