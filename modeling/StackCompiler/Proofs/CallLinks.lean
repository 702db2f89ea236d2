import StackCompiler.Proofs.WellFormed

/-! Calls link.
Entry names lead to the routines of a module and to nothing else, and whoever calls a routine passes as
many arguments as it takes and expects a result exactly if it gives one. So every module has a
listing. -/
namespace StackCompiler

theorem Passes.optimize_signature (p : Passes) (r : RoutineCode) :
    (p.optimize r).name = r.name ∧ (p.optimize r).params = r.params ∧
      (p.optimize r).returns = r.returns := by
  obtain ⟨lifetime,cse,peephole⟩ := p
  cases lifetime <;> cases cse <;> cases peephole <;> exact ⟨rfl,rfl,rfl⟩

section entries

variable {rs : List RoutineCode}

theorem keys_entryPoints (rs : List RoutineCode) :
    (rs.zipIdx.map fun r => (r.1.name,r.2)).map Prod.fst = rs.map RoutineCode.name := by
  have hfst : (Prod.fst ∘ fun r : RoutineCode × Nat => (r.1.name,r.2)) =
      RoutineCode.name ∘ Prod.fst := rfl
  rw [List.map_map,hfst,← List.map_map,List.zipIdx_map_fst]

/-- Where no two routines have the same name, each is found under its name. -/
theorem lookup_entryPoints (h : (rs.map RoutineCode.name).Nodup) {name : String} {i : Nat} :
    (rs.zipIdx.map fun r => (r.1.name,r.2)).lookup name = some i ↔
      ∃ rc, rs[i]? = some rc ∧ rc.name = name := by
  have hmem : ∀ x : String × Nat, x ∈ rs.zipIdx.map (fun r => (r.1.name,r.2)) ↔
      ∃ rc, rs[x.2]? = some rc ∧ rc.name = x.1 := by
    intro x
    constructor
    · intro hx
      obtain ⟨r,hr,rfl⟩ := List.mem_map.mp hx
      exact ⟨r.1,List.mem_zipIdx_iff_getElem?.mp hr,rfl⟩
    · rintro ⟨rc,hrc,hname⟩
      exact List.mem_map.mpr ⟨(rc,x.2),List.mem_zipIdx_iff_getElem?.mpr hrc,by rw [hname]⟩
  constructor
  · intro hl
    exact (hmem (name,i)).mp (Lowering.mem_of_lookup_labels hl)
  · intro hx
    exact Lowering.lookup_of_nodup (by rwa [keys_entryPoints]) (name,i) ((hmem (name,i)).mpr hx)

end entries

namespace Lowering

variable {u : SourceUnit} {caseSensitive : Bool} {m : Module}

/-- A called routine is there, takes the arguments and gives what is expected. -/
theorem exists_callee (h : (run u caseSensitive).2 = .ok m) {rc : RoutineCode}
    (hrc : rc ∈ m.routines) {entry : String} {argc : Nat} {returns : Bool}
    (hcall : .callee (.routine entry) argc returns ∈ rc.code.references) :
    ∃ callee ∈ m.routines, callee.name = entry ∧ callee.params = argc ∧
      (returns = true ↔ callee.returns ≠ .void) := by
  obtain ⟨ground,main,rest,ha⟩ := assembled_of_run h
  have htyped : ∃ size, rc.code.Types
      (looseContext u.language m.routines (globals ground.global) size) [] [] := by
    rw [ha.routines] at hrc
    rcases List.mem_cons.mp hrc with rfl | hrc
    · exact ⟨_,ha.mainProgram.loose ha.grounded⟩
    · obtain ⟨x,_,hf⟩ := exists_of_mem_right ha.others hrc
      exact ⟨_,hf.loose ha.grounded⟩
  obtain ⟨size,htypes⟩ := htyped
  obtain ⟨st,st',hi⟩ := htypes.of_mem (Code.mem_call hcall)
  obtain ⟨params,t,⟨callee,hcallee,hname,hparams,rfl⟩,rfl,rfl⟩ := hi.callee
  refine ⟨callee,hcallee,hname,?_,?_⟩
  · have hle := (lowered_of_run h callee hcallee).params
    rw [← hparams,RoutineCode.paramTypes,List.length_map,List.length_take,Nat.min_eq_left hle]
  · cases hb : callee.returns <;> decide

end Lowering

namespace Listing

/-- A module whose calls all find their routines has a listing. -/
theorem unknownCall?_eq_none {m : Module}
    (h : ∀ rc ∈ m.routines, ∀ entry argc returns, .call (.routine entry) argc returns ∈ rc.code →
      ∃ i, (entry,i) ∈ m.entryPoints) : unknownCall? m = none := by
  refine List.findSome?_eq_none_iff.mpr fun i hi => ?_
  obtain ⟨rc,hrc,hi⟩ := List.mem_flatMap.mp hi
  cases i with
  | call target argc returns =>
    cases target with
    | routine entry =>
      obtain ⟨k,hk⟩ := h rc hrc entry argc returns hi
      exact if_pos (List.any_eq_true.mpr ⟨(entry,k),hk,beq_self_eq_true entry⟩)
    | runtime => rfl
  | _ => rfl

end Listing

theorem Module.names_optimize (m : Module) (p : Passes) :
    (m.optimize p).routines.map RoutineCode.name = m.routines.map RoutineCode.name := by
  unfold optimize
  rw [List.map_map]
  exact List.map_congr_left fun r _ => (p.optimize_signature r).1

theorem SourceUnit.entryPoints_compile {u : SourceUnit} {o : CompileOptions} {m : Module}
    (h : u.compile o = .ok m) :
    (m.routines.map RoutineCode.name).Nodup ∧
      m.entryPoints = m.routines.zipIdx.map fun r => (r.1.name,r.2) := by
  obtain ⟨m₀,hrun,rfl⟩ := compile_eq_ok h
  obtain ⟨ground,main,rest,ha⟩ := Lowering.assembled_of_run hrun
  constructor
  · rw [m₀.names_optimize]
    exact ha.names
  · change m₀.entryPoints = (m₀.routines.map o.passes.optimize).zipIdx.map _
    rw [ha.entryPoints,List.zipIdx_map,List.map_map]
    exact List.map_congr_left fun r _ => by simp [o.passes.optimize_signature]

theorem SourceUnit.exists_callee_compile {u : SourceUnit} {o : CompileOptions} {m : Module}
    (h : u.compile o = .ok m) {rc : RoutineCode} (hrc : rc ∈ m.routines) {entry : String} {argc : Nat}
    {returns : Bool} (hcall : .call (.routine entry) argc returns ∈ rc.code) :
    ∃ i callee, m.entryPoints.lookup entry = some i ∧ m.routines[i]? = some callee ∧
      callee.params = argc ∧ (returns = true ↔ callee.returns ≠ .void) := by
  obtain ⟨hnames,hentries⟩ := entryPoints_compile h
  obtain ⟨m₀,hrun,rfl⟩ := compile_eq_ok h
  obtain ⟨old,hmem,rfl⟩ := List.mem_map.mp hrc
  have hold := o.passes.references_optimize (Code.mem_references_of_call hcall) fun _ => nofun
  obtain ⟨callee,hcallee,rfl,rfl,hreturns⟩ := Lowering.exists_callee hrun hmem hold
  obtain ⟨i,hi⟩ := List.getElem?_of_mem hcallee
  have hget : (m₀.optimize o.passes).routines[i]? = some (o.passes.optimize callee) := by
    change (m₀.routines.map o.passes.optimize)[i]? = _
    rw [List.getElem?_map,hi]
    rfl
  obtain ⟨hname,hparams,hreturns'⟩ := o.passes.optimize_signature callee
  refine ⟨i,o.passes.optimize callee,?_,hget,hparams,?_⟩
  · rw [hentries]
    exact (lookup_entryPoints hnames).mpr ⟨_,hget,hname⟩
  · rwa [hreturns']

theorem SourceUnit.listing_compile {u : SourceUnit} {o : CompileOptions} {m : Module}
    (h : u.compile o = .ok m) (frames : Bool) : ∃ text, m.listing frames = .ok text := by
  have hnone : Listing.unknownCall? m = none := by
    refine Listing.unknownCall?_eq_none fun rc hrc entry argc returns hcall => ?_
    obtain ⟨i,_,hl,_⟩ := exists_callee_compile h hrc hcall
    exact ⟨i,Lowering.mem_of_lookup_labels hl⟩
  rw [Module.listing,hnone]
  exact ⟨_,rfl⟩

open Lowering in
/-- Calls link: each routine is found under its name and nothing else is, routine 0 is the code of the
main program from where it is taken up, without diagnostics, and every call finds a routine that takes
its arguments and gives a result exactly if one is expected. So every module has a listing, and a unit
has one unless it does not compile. -/
theorem SourceUnit.compile_links (u : SourceUnit) (o : CompileOptions) :
    (∀ m, u.compile o = .ok m →
      (m.entryPoints.map Prod.fst).Nodup ∧
      (∀ name i, m.entryPoints.lookup name = some i ↔
        ∃ rc, m.routines[i]? = some rc ∧ rc.name = name) ∧
      (m.main = 0 ∧ ∃ (code : Code) (s : State),
        let r := mainRoutine u (o.caseRule u)
        (bodyCode r (mainBody r u)).Gives (mainStart u (o.caseRule u)) code s ∧ s.errors = [] ∧
        m.routines[0]? = some (o.passes.optimize
          { name := r.entry, params := 0, returns := .void, frame := s.frame, code })) ∧
      (∀ rc ∈ m.routines, ∀ entry argc returns, .call (.routine entry) argc returns ∈ rc.code →
        ∃ i callee, m.entryPoints.lookup entry = some i ∧ m.routines[i]? = some callee ∧
          callee.params = argc ∧ (returns = true ↔ callee.returns ≠ .void)) ∧
      ∀ frames, ∃ text, m.listing frames = .ok text) ∧
    ∀ ds, u.compileListing o = .error ds ↔ u.compile o = .error ds := by
  constructor
  · intro m h
    obtain ⟨hnames,hentries⟩ := entryPoints_compile h
    refine ⟨?_,fun name i => ?_,?_,fun rc hrc entry argc returns => exists_callee_compile h hrc,
      listing_compile h⟩
    · rwa [hentries,keys_entryPoints]
    · rw [hentries]
      exact lookup_entryPoints hnames
    · obtain ⟨m₀,hrun,rfl⟩ := compile_eq_ok h
      obtain ⟨ground,main,rest,ha⟩ := assembled_of_run hrun
      refine ⟨ha.main,?_⟩
      have hget : (m₀.optimize o.passes).routines[0]? = some (o.passes.optimize main) := by
        change (m₀.routines.map o.passes.optimize)[0]? = _
        rw [ha.routines]
        rfl
      rw [hget]
      obtain @⟨_,b,code,s,hroutine,hmain,_,_,_,_,hbody,herrors⟩ := ha.mainProgram
      refine ⟨code,s,?_⟩
      simp only [← hroutine,← hmain]
      exact ⟨hbody,herrors.2,rfl⟩
  · intro ds
    unfold compileListing
    cases hc : u.compile o with
    | error es => simp only [Except.error.injEq]
    | ok m =>
      obtain ⟨text,htext⟩ := listing_compile hc false
      simp only [htext]
      exact ⟨nofun,nofun⟩

theorem SourceUnit.compile_links_nestedRoutines :
    ∃ m caller callee i, nestedRoutines.compile {} = .ok m ∧ caller ∈ m.routines ∧
      caller.name = "SUM" ∧ .call (.routine "SUM.SHOW") 1 false ∈ caller.code ∧
      m.entryPoints.lookup "SUM.SHOW" = some i ∧ m.routines[i]? = some callee ∧
      callee.params = 1 ∧ callee.returns = .void ∧ (∃ text, m.listing = .ok text) ∧
      ∀ ds, nestedRoutines.compileListing {} ≠ .error ds := by
  have hview : ((nestedRoutines.compile {}).toOption.bind fun m => m.routines[1]?.map fun rc =>
      (rc.name,rc.code[4]?)) =
      some ("SUM",some (.call (.routine "SUM.SHOW") 1 false)) := by
    decide +kernel
  obtain ⟨m,caller,hm,hcaller,hview⟩ := exists_of_routine hview
  obtain ⟨hname,hcall⟩ := Prod.mk.inj hview
  have hmem := List.mem_of_getElem? hcaller
  have hcode := List.mem_of_getElem? hcall
  obtain ⟨hok,herror⟩ := SourceUnit.compile_links nestedRoutines {}
  obtain ⟨_,_,_,hcalls,hlisting⟩ := hok m hm
  obtain ⟨i,callee,hentry,hroutine,hparams,hreturns⟩ := hcalls caller hmem _ _ _ hcode
  refine ⟨m,caller,callee,i,hm,hmem,hname,hcode,hentry,hroutine,hparams,?_,hlisting false,
    fun ds hds => ?_⟩
  · by_contra hvoid
    cases hreturns.mpr hvoid
  · cases hm.symm.trans ((herror ds).mp hds)

end StackCompiler
