import StackCompiler.Proofs.SlotTypes

/-! Routines whose slots have the types they are used at.
Where the result has a name of its own, so that no parameter and no variable shares its slot, all code is
typed by the frame it was made for. -/
namespace StackCompiler

/-- No parameter of the routine and no variable declared in it has its name. -/
structure Routine.NamesApart (x : Routine) (caseSensitive : Bool) : Prop where
  params : ∀ y ∈ x.params, normalize caseSensitive y.name ≠ normalize caseSensitive x.name
  locals : ∀ line d, Stmt.declare line d ∈ Stmt.flattenAll x.body → d.cls = .variable →
    normalize caseSensitive d.name ≠ normalize caseSensitive x.name

def Routine.Declares (x : Routine) (d : Declaration) : Prop :=
  ∃ line, Stmt.declare line d ∈ Stmt.flattenAll x.body

theorem Literal.eq_label_of_zero {t : BaseType} (h : zero t = none) (ht : t ≠ .void) : t = .label := by
  cases t with
  | label => rfl
  | void => exact absurd rfl ht
  | integer | double | char | boolean => cases h

namespace Lowering

open Lower

/-- What is new in the innermost scope comes from the declarations made. -/
theorem State.Alters.declared {r : Routine} {D : Declaration → Prop} {s s' : State}
    (h : s.Alters r D s') {y : Symbol} (hy : y ∈ s'.scopes.current.entries) :
    y ∈ s.scopes.current.entries ∨ ∃ d, D d ∧ (d.cls = .constant ∨ d.cls = .variable) ∧
      y.cls = d.cls ∧ y.key = normalize s.scopes.current.caseSensitive d.name := by
  induction h with
  | refl => exact .inl hy
  | @tail t u hbefore hstep ih =>
    cases hstep with
    | touch found line =>
      rw [ScopeStack.entries_current_touch] at hy
      exact ih hy
    | share hs =>
      rw [entries_share hs] at hy
      exact ih hy
    | @declare d _ _ _ hdecl hd =>
      obtain ⟨new,hnew,rfl,_,rfl⟩ := declare_cases hdecl
      obtain ⟨hname,_,hcls,hkind⟩ := declared_eq_ok hnew
      rw [entries_add] at hy
      rcases List.mem_append.mp hy with hy | hy
      · exact ih hy
      · obtain rfl := List.mem_singleton.mp hy
        refine .inr ⟨d,hd,hkind,hcls,?_⟩
        rw [← hname,← ScopeStack.rule_of_outline (State.Alters.changes hbefore).outline]
        rfl
    | label | record | temp | slot | result => exact ih hy

namespace Prepared

variable {u : SourceUnit} {caseSensitive : Bool} {language : Language} {entry : String}
  {x : StackCompiler.Routine} {p : Progress} {final : List RoutineCode} {ground : ScopeStack}
  {s : State}

theorem rule_ground (b : Prepared language entry x p) (hground : Grounded u caseSensitive ground)
    (hstart : Sound final ground b.start.scopes) :
    b.start.scopes.caseSensitive = caseSensitive := by
  rw [← hground.rule,← hstart.outer]
  rfl

theorem eq_of_resultName (b : Prepared language entry x p) {name : String}
    (h : b.routine.resultName = some name) :
    language = .fortran ∧ name = normalize b.start.scopes.caseSensitive x.name := by
  change (if language = .fortran ∧ x.returns ≠ .void then some (b.scopes.normalize x.name)
    else none) = some name at h
  split at h
  · next hf =>
    refine ⟨hf.1,?_⟩
    rw [← Option.some.inj h,ScopeStack.normalize_eq,
      show b.start.scopes.caseSensitive = b.scopes.caseSensitive from
        ScopeStack.caseSensitive_add _ _]
  · cases h

theorem returns_of_resultName (b : Prepared language entry x p) {name : String}
    (h : b.routine.resultName = some name) : x.returns ≠ .void := by
  change (if language = .fortran ∧ x.returns ≠ .void then some (b.scopes.normalize x.name)
    else none) = some name at h
  split at h
  · next hf => exact hf.2
  · cases h

/-- The symbols of the routine's scope when its body is taken up. -/
theorem entries_start (b : Prepared language entry x p) {y : Symbol}
    (hy : y ∈ b.start.scopes.current.entries) :
    (∃ z ∈ x.params, y.cls = .parameter ∧ y.key = normalize b.start.scopes.caseSensitive z.name) ∨
      y.cls = .function ∧ x.routines ≠ [] ∨ y.cls = .label := by
  have hempty : b.scopes.current.entries = [] := by
    rw [(push_eq_ok b.opened).2.2.1]
    rfl
  change y ∈ (b.scopes.add _).current.entries at hy
  rw [entries_add,hempty,List.nil_append] at hy
  rw [← b.rule_current]
  obtain ⟨z,hz,rfl⟩ := List.mem_map.mp hy
  rcases List.mem_append.mp hz with hz | hz
  · rcases List.mem_append.mp hz with hz | hz
    · obtain ⟨param,hparam,rfl⟩ := List.mem_map.mp hz
      exact .inl ⟨param,hparam,rfl,rfl⟩
    · obtain ⟨nested,hnested,rfl⟩ := List.mem_map.mp hz
      exact .inr (.inl ⟨rfl,List.ne_nil_of_mem hnested⟩)
  · obtain ⟨name,_,rfl⟩ := List.mem_map.mp hz
    exact .inr (.inr rfl)

theorem alters (b : Prepared language entry x p) {code : Code}
    (hbody : (bodyCode b.routine (stmts b.routine x.body)).Gives b.start code s) :
    b.start.Alters b.routine x.Declares s :=
  alters_of_gives hbody (stays_bodyCode (keeps_stmts _ _ _ fun line _ hd => ⟨line,hd⟩))

/-- Parameters and variables have other names than the result. -/
theorem free (b : Prepared language entry x p) (hs : b.start.Alters b.routine x.Declares s)
    (hname : language = .fortran → x.returns ≠ .void →
      x.NamesApart b.start.scopes.caseSensitive) : s.Free b.routine := by
  intro y hy hresult
  obtain ⟨hlanguage,hkey⟩ := b.eq_of_resultName hresult
  have hapart := hname hlanguage (b.returns_of_resultName hresult)
  have hstorage : y.cls = .variable ∨ y.cls = .parameter := by
    simpa [Symbol.hasStorage] using hy.2
  rcases hs.declared hy.1 with hold | ⟨d,⟨line,hd⟩,hkind,hcls,hnew⟩
  · rcases b.entries_start hold with ⟨z,hz,_,hz'⟩ | ⟨hcls,_⟩ | hcls
    · exact hapart.params z hz (hz'.symm.trans hkey)
    · rcases hstorage with h | h <;> cases hcls.symm.trans h
    · rcases hstorage with h | h <;> cases hcls.symm.trans h
  · have hvariable : d.cls = .variable := by
      rcases hkind with hk | hk
      · rcases hstorage with h | h <;> cases hk.symm.trans (hcls.symm.trans h)
      · exact hk
    have hrule : b.start.scopes.current.caseSensitive = b.start.scopes.caseSensitive :=
      (ScopeStack.rule_of_outline (ScopeStack.outline_add _ _)).trans b.rule_current
    rw [hrule] at hnew
    exact hapart.locals line d hd hvariable (hnew.symm.trans hkey)

/-- Where a function's own name means the function, it has the type of its result. -/
theorem readsResult (b : Prepared u.language entry x p) (hground : Grounded u caseSensitive ground)
    (hbefore : Sound final ground p.scopes) (hstart : Sound final ground b.start.scopes)
    (htop : p.scopes.depth = 0 → x ∈ u.routines) (hflat : ground.scoping = .flat → x.routines = [])
    (hs : b.start.Changes b.routine s) : s.ReadsResult b.routine := by
  intro name found hr hcls hresult
  obtain ⟨hlanguage,hkey⟩ := b.eq_of_resultName hresult
  have hscoping : ground.scoping = .flat := by
    rw [hground.scoping,hlanguage]
    rfl
  have hsound := hstart.changes b.depth_start hs
  have houter : p.scopes.depth = 0 := by
    refine depth_of_push b.opened ?_
    rw [← hscoping,← hbefore.outer]
    rfl
  have hdepth : s.scopes.depth = 1 := by
    rw [ScopeStack.depth_of_outline hs.outline,b.depth_start]
    change b.handle.depth = 1
    rw [(push_eq_ok b.opened).1,houter]
  obtain ⟨symbol,depth⟩ := found
  have hle : depth ≤ 1 := by
    have hlt := ScopeStack.depth_lt_of_find hr
    rw [ScopeStack.scopes,List.length_append] at hlt
    change depth < s.scopes.depth + 1 at hlt
    omega
  rcases Nat.le_one_iff_eq_zero_or_eq_one.mp hle with rfl | rfl
  · obtain ⟨z,hz,hzkey,htype⟩ := hground.routine x (htop houter)
    have hmem := hsound.mem_ground hr
    rw [b.rule_ground hground hstart] at hkey
    have hsame := eq_of_key hground.distinct hmem hz (hkey.trans hzkey.symm)
    change symbol.forget.type = _
    rw [hsame]
    exact htype
  · rw [← hdepth] at hr
    rcases State.Alters.declared hs (ScopeStack.owns_of_resolve hr) with hold | ⟨d,_,hkind,hcls',_⟩
    · rcases b.entries_start hold with ⟨_,_,hparam,_⟩ | ⟨_,hnested⟩ | hlabel
      · cases hparam.symm.trans hcls
      · exact absurd (hflat hscoping) hnested
      · cases hlabel.symm.trans hcls
    · rcases hkind with hk | hk <;> cases hk.symm.trans (hcls'.symm.trans hcls)

/-- Where the result has a slot of its own, every slot has the type that it is used at. -/
theorem slots (b : Prepared u.language entry x p) (hground : Grounded u caseSensitive ground)
    (hbefore : Sound final ground p.scopes) (hstart : Sound final ground b.start.scopes)
    {code : Code} (hbody : (bodyCode b.routine (stmts b.routine x.body)).Gives b.start code s)
    (htop : p.scopes.depth = 0 → x ∈ u.routines) (hflat : ground.scoping = .flat → x.routines = [])
    (hname : u.language = .fortran → x.returns ≠ .void → x.NamesApart caseSensitive) :
    Slots (fun n t => s.frame.type? n = some t) b.routine (fun _ => True) b.start s := by
  have hfree := b.free (b.alters hbody) (by rwa [b.rule_ground hground hstart])
  intro t t' n type
  exact slots_typed b.housed_start hfree fun ht =>
    b.readsResult hground hbefore hstart htop hflat ht

end Prepared

section typed

variable {u : SourceUnit} {caseSensitive : Bool} {final : List RoutineCode} {ground : ScopeStack}
  {body : Evaluation.Body} {rc : RoutineCode} {returns : Bool → List Ty → Prop}

theorem Finished.typed (h : Finished u.language final ground u.routines body rc)
    (hground : Grounded u caseSensitive ground)
    (hname : u.language = .fortran → body.routine.NamesApart caseSensitive)
    (hnothing : body.routine.returns = .void → returns false [])
    (hvalue : body.routine.returns ≠ .void → returns true [.scalar body.routine.returns])
    (hempty : u.language = .comal → body.routine.returns = .label → returns true []) :
    rc.code.Types (contextOf u.language final (globals ground.global)
      (fun n t => rc.frame.type? n = some t) returns) [] [] := by
  obtain ⟨b,_,hbefore,hstart,hbody,_,htop,hflat⟩ := h
  refine b.types hground hstart hbody
    (b.slots hground hbefore hstart hbody htop hflat fun hu _ => hname hu)
    ⟨hnothing,hvalue,fun hvoid hnone hzero => ?_⟩
  refine hempty ?_ (Literal.eq_label_of_zero hzero hvoid)
  cases hl : u.language with
  | comal => rfl
  | fortran =>
    rw [show b.routine.resultName = some _ from if_pos ⟨hl,hvoid⟩] at hnone
    cases hnone

theorem FinishedMain.typed (h : FinishedMain u caseSensitive final ground rc)
    (hground : Grounded u caseSensitive ground) (hnothing : returns false []) :
    rc.code.Types (contextOf u.language final (globals ground.global)
      (fun n t => rc.frame.type? n = some t) returns) [] [] := by
  obtain ⟨b,_,_,_,_,hstart,hdepth,hbody,_⟩ := h
  exact b.types hground hstart hdepth hbody (slots_unnamed (b.housed_start hdepth) rfl)
    ⟨fun _ => hnothing,fun h => absurd rfl h,fun h => absurd rfl h⟩

end typed

end Lowering
end StackCompiler
