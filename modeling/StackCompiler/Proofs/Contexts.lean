import StackCompiler.Proofs.Bodies
import StackCompiler.Proofs.LoweredTypes

/-! What the code of a module may refer to.
The routines that are called are routines of the module, and the variables that are named without a
slot are those of the outermost scope. Only of the slots of a routine different things may be known:
code keeps to whatever holds of the slots that the lowering comes across. -/
namespace StackCompiler.Lowering

open Lower

/-- The context of the code of one routine: the routines of the module, the variables of the outermost
scope, and what is known of its own slots and of the stacks with which it returns. -/
def contextOf (language : Language) (final : List RoutineCode) (outer : List (String × Ty))
    (slots : Slot → Ty → Prop) (returns : Bool → List Ty → Prop) : Context where
  language
  place
    | .slot n, t => slots n t
    | .global name, t => (name,t) ∈ outer
  routine := Linked final
  returns

/-- The property holds of all slots that the lowering comes across between two states. -/
def Slots (slots : Slot → Ty → Prop) (r : Routine) (D : Declaration → Prop) (s s' : State) : Prop :=
  ∀ {t t' : State} {n : Slot} {type : Ty}, s.Changes r t → Found r D t (.slot n) type t' →
    t'.Changes r s' → slots n type

section fits

variable {u : SourceUnit} {caseSensitive : Bool} {ground : ScopeStack} {final : List RoutineCode}
  {r : Routine} {D : Declaration → Prop} {s s' : State}

theorem mem_globals {t : SymbolTable} {x : Symbol} (hx : x ∈ t.symbols) (hc : x.cls = .variable) :
    (x.key,x.type) ∈ globals t := by
  refine List.mem_map.mpr ⟨x,List.mem_filter.mpr ⟨hx,?_⟩,rfl⟩
  rw [hc]
  decide

/-- A variable that is found without a slot is one of the outermost scope. -/
theorem Found.mem_globals (hground : Grounded u caseSensitive ground)
    (hs : Sound final ground s.scopes)
    (hD : r.depth = 0 → ∀ d, D d → d ∈ u.globals ++ mainDeclarations u.main) {name : String}
    {type : Ty} (h : Found r D s (.global name) type s') : (name,type) ∈ globals ground.global := by
  generalize hp : Place.global name = p at h
  cases h with
  | @stored _ _ _ found _ hr hst hplace =>
    obtain ⟨symbol,depth⟩ := found
    rcases gives_place.mp hplace with ⟨hz,rfl,_⟩ | ⟨_,_,rfl,_⟩
    · cases hp
      obtain rfl : depth = 0 := hz
      have hmem := hs.mem_ground hr
      exact Lowering.mem_globals (x := symbol.forget) hmem (hground.stored _ hmem hst)
    · cases hp
  | room hr hd hn =>
    cases hp
    obtain ⟨x,hx,hkey,htype,hcls⟩ := hground.declared _ (hD hr _ hd)
    have hrule : s.scopes.caseSensitive = caseSensitive := by
      rw [← ScopeStack.caseSensitive_ground,hs.outer]
      exact hground.rule
    rw [ScopeStack.normalize_eq,hrule,← hkey,← htype]
    refine Lowering.mem_globals hx (hcls.trans ?_)
    simp only [needsRoom,Bool.and_eq_true,beq_iff_eq] at hn
    exact hn.1
  | array | temp | result | resultRead => cases hp

/-- From sound scopes the context knows all that the lowering of a body comes across. -/
theorem Sound.fits {slots : Slot → Ty → Prop} {returns : Bool → List Ty → Prop}
    (hs : Sound final ground s.scopes) (hground : Grounded u caseSensitive ground)
    (hdepth : s.scopes.depth = r.depth)
    (hD : r.depth = 0 → ∀ d, D d → d ∈ u.globals ++ mainDeclarations u.main)
    (hslots : Slots slots r D s s')
    (hreturns : Returning (contextOf r.language final (globals ground.global) slots returns) r) :
    Fits (contextOf r.language final (globals ground.global) slots returns) r D s s' where
  language := rfl
  place {_ _ p _} hbefore hf hafter := by
    cases p with
    | slot n => exact hslots hbefore hf hafter
    | global name => exact hf.mem_globals hground (hs.changes hdepth hbefore) hD
  routine hbefore hr hroutine :=
    ((hs.changes hdepth hbefore).symbols.of_mem (ScopeStack.exists_of_resolveRoutine hr)).routine
      hroutine
  constant hbefore hr hc hl :=
    ((hs.changes hdepth hbefore).symbols.of_mem (ScopeStack.exists_of_resolve hr)).constant hc _ hl
  returns := hreturns

end fits

section finished

variable {u : SourceUnit} {caseSensitive : Bool} {ground : ScopeStack} {final : List RoutineCode}
  {slots : Slot → Ty → Prop} {returns : Bool → List Ty → Prop} {code : Code} {s : State}

theorem types_of_mainBody {Γ : Context} {r : Routine} {s s' : State} (hr : r.depth = 0)
    (h : (mainBody r u).Gives s code s')
    (hfits : Fits Γ r (· ∈ u.globals ++ mainDeclarations u.main) s s') : code.Types Γ [] [] := by
  simp only [mainBody,gives_bind,gives_pure] at h
  obtain ⟨arrays,t,ha,body,_,hb,rfl,rfl⟩ := h
  have hst := changes_of_gives ha (stays_allocateAll r u.globals s)
  have hts := changes_of_gives hb (stays_stmts r u.main t)
  refine (types_of_allocateAll hr u.globals ha (hfits.upTo hts) fun d hd => ?_).append
    (types_of_stmts r u.main hb (hfits.from hst) fun line d hd => ?_)
  · exact List.mem_append_left _ hd
  · exact List.mem_append_right _ (List.mem_filterMap.mpr ⟨_,hd,rfl⟩)

section prepared

variable {language : Language} {entry : String} {x : StackCompiler.Routine} {p : Progress}

/-- What is known of the slots of a routine is all that its body needs. -/
theorem Prepared.fits (b : Prepared language entry x p) (hground : Grounded u caseSensitive ground)
    (hstart : Sound final ground b.start.scopes)
    (hslots : Slots slots b.routine (fun _ => True) b.start s)
    (hreturns : Returning (contextOf language final (globals ground.global) slots returns) b.routine) :
    Fits (contextOf language final (globals ground.global) slots returns) b.routine (fun _ => True)
      b.start s :=
  hstart.fits hground b.depth_start (fun hz => absurd hz b.depth_ne_zero) hslots hreturns

/-- The code of a routine is typed by what is known of its slots. -/
theorem Prepared.types (b : Prepared language entry x p) (hground : Grounded u caseSensitive ground)
    (hstart : Sound final ground b.start.scopes)
    (hbody : (bodyCode b.routine (stmts b.routine x.body)).Gives b.start code s)
    (hslots : Slots slots b.routine (fun _ => True) b.start s)
    (hreturns : Returning (contextOf language final (globals ground.global) slots returns) b.routine) :
    code.Types (contextOf language final (globals ground.global) slots returns) [] [] :=
  types_of_bodyCode hbody (stays_stmts _ _ _) (b.fits hground hstart hslots hreturns)
    fun hs hfits => types_of_stmts b.routine x.body hs hfits fun _ _ _ => trivial

theorem PreparedMain.fits (b : PreparedMain u p) (hground : Grounded u caseSensitive ground)
    (hstart : Sound final ground b.start.scopes) (hdepth : b.start.scopes.depth = 0)
    (hslots : Slots slots b.routine (· ∈ u.globals ++ mainDeclarations u.main) b.start s)
    (hreturns : Returning (contextOf u.language final (globals ground.global) slots returns)
      b.routine) :
    Fits (contextOf u.language final (globals ground.global) slots returns) b.routine
      (· ∈ u.globals ++ mainDeclarations u.main) b.start s :=
  hstart.fits hground hdepth (fun _ _ hd => hd) hslots hreturns

/-- The code of the main program is typed by what is known of its slots. -/
theorem PreparedMain.types (b : PreparedMain u p) (hground : Grounded u caseSensitive ground)
    (hstart : Sound final ground b.start.scopes) (hdepth : b.start.scopes.depth = 0)
    (hbody : (bodyCode b.routine (mainBody b.routine u)).Gives b.start code s)
    (hslots : Slots slots b.routine (· ∈ u.globals ++ mainDeclarations u.main) b.start s)
    (hreturns : Returning (contextOf u.language final (globals ground.global) slots returns)
      b.routine) :
    code.Types (contextOf u.language final (globals ground.global) slots returns) [] [] :=
  types_of_bodyCode hbody (stays_mainBody _ u _) (b.fits hground hstart hdepth hslots hreturns)
    fun hs hfits => types_of_mainBody rfl hs hfits

end prepared

end finished

end StackCompiler.Lowering
