import StackCompiler.Proofs.CallLinks
import StackCompiler.Proofs.AccessNotes

/-! Arrays while a module runs.
What the notes say of the stack holds in every state of a run, for the routine that runs and for those
that wait for the end of a call: a called routine never gives an array variable of the outermost scope
another array. If besides every call passes arrays of the extents that the parameters ask for, the arrays
in variables have the fixed extents of their types. -/
namespace StackCompiler

open Machine

def Module.DeclaresArray (m : Module) (g : String) : Prop :=
  ∃ type, (g,type) ∈ m.globals ∧ type.isScalar = false

def Module.PlaceType (m : Module) (rc : RoutineCode) : Place → Ty → Prop
  | .slot n, type => rc.frame.type? n = some type
  | .global g, type => (g,type) ∈ m.globals

/-- What keeps array variables of the outermost scope as they are: they are never stored to, and only the
main program, which nothing calls, makes arrays for them. -/
structure Module.Steady (m : Module) (called : List RoutineCode) : Prop where
  disciplined : ∀ rc ∈ m.routines, rc.code.Disciplined
  checks : ∀ rc ∈ m.routines, ∀ g dim, .checkBounds (.global g) dim ∈ rc.code → m.DeclaresArray g
  stores : ∀ rc ∈ m.routines, ∀ g, .store (.global g) ∈ rc.code → ¬ m.DeclaresArray g
  allocs : ∀ rc ∈ called, ∀ g element n, .alloc (.global g) element n ∉ rc.code
  calls : ∀ rc ∈ m.routines, ∀ entry argc returns, .call (.routine entry) argc returns ∈ rc.code →
    ∀ callee, routine? m entry = some callee → callee ∈ m.routines ∧ callee ∈ called

/-- Arrays are made with the fixed extents of the types of their variables, and values are stored only
in scalars. -/
structure Module.Sizes (m : Module) : Prop where
  stores : ∀ rc ∈ m.routines, ∀ p type, .store p ∈ rc.code → m.PlaceType rc p type →
    type.isScalar = true
  allocs : ∀ rc ∈ m.routines, ∀ pc p element rank type, rc.code[pc]? = some (.alloc p element rank) →
    m.PlaceType rc p type → ∃ ns below, rank = ns.length ∧ Lowering.Sized type.dimensions ns ∧
      rc.code.notesAt pc = ns.reverse ++ below

/-- The functions that assign their results by name have slots for them that no parameter and no variable
shares. -/
def SourceUnit.ResultsApart (u : SourceUnit) (caseSensitive : Bool) : Prop :=
  ∀ x ∈ Routine.preorderAll u.routines, u.language = .fortran → x.returns ≠ .void →
    x.NamesApart caseSensitive

namespace Lowering

open Evaluation

section assembled

variable {u : SourceUnit} {caseSensitive : Bool} {m : Module} {ground : ScopeStack}
  {main : RoutineCode} {rest : List RoutineCode} {typed : Prop} {rc : RoutineCode} {body : Body}

/-- Every routine is surveyed with its body; what can be called has a scope of its own. -/
theorem Assembled.surveyed (h : Assembled u caseSensitive m ground main rest)
    (hname : typed → u.ResultsApart caseSensitive) (hrc : rc ∈ m.routines) :
    ∃ body, (body,rc) ∈ (Evaluation.bodies u caseSensitive).zip m.routines ∧
      (rc ∈ rest → body.setting.depth ≠ 0) ∧ Surveyed u.language rest ground typed body rc := by
  rw [h.routines,Evaluation.bodies,List.zip_cons_cons]
  by_cases hrest : rc ∈ rest
  · obtain ⟨body,hbody,hfinished⟩ := exists_zip_of_mem_right h.bodies hrest
    have hroutine : body.routine ∈ Routine.preorderAll u.routines := by
      rw [← routine_subprograms u caseSensitive]
      exact List.mem_map_of_mem (List.of_mem_zip hbody).1
    obtain ⟨hdepth,hsurveyed⟩ := hfinished.surveyed h.grounded fun ht => hname ht _ hroutine
    exact ⟨body,List.mem_cons_of_mem _ hbody,fun _ => hdepth,hsurveyed⟩
  · rw [h.routines] at hrc
    rcases List.mem_cons.mp hrc with rfl | hmem
    · exact ⟨_,List.mem_cons_self,fun hmem => absurd hmem hrest,h.mainBody.surveyed h.grounded⟩
    · exact absurd hmem hrest

theorem Assembled.type_unique (h : Assembled u caseSensitive m ground main rest) {g : String}
    {type type' : Ty} (ht : (g,type) ∈ m.globals) (ht' : (g,type') ∈ m.globals) : type = type' := by
  rw [h.globals] at ht ht'
  have hsame := List.inj_on_of_nodup_map (nodup_globals h.grounded.distinct) ht ht' rfl
  exact (Prod.mk.inj hsame).2

/-- A place whose type is known by the survey has no other type. -/
theorem Assembled.placeType_unique (h : Assembled u caseSensitive m ground main rest) (ht : typed)
    {p : Place} {type type' : Ty}
    (hp : (placesOf u.language rest ground rc.frame typed).place p type)
    (hp' : m.PlaceType rc p type') : type = type' := by
  cases p with
  | slot n => exact Option.some.inj ((hp ht).symm.trans hp')
  | global g => exact h.type_unique (h.globals ▸ hp) hp'

theorem Assembled.sizes (h : Assembled u caseSensitive m ground main rest)
    (hname : u.ResultsApart caseSensitive) : m.Sizes := by
  have hsurvey : ∀ rc ∈ m.routines, ∃ body,
      (body,rc) ∈ (Evaluation.bodies u caseSensitive).zip m.routines ∧
      (rc ∈ rest → body.setting.depth ≠ 0) ∧ Surveyed u.language rest ground True body rc :=
    fun rc hrc => h.surveyed (fun _ => hname) hrc
  refine ⟨?_,?_⟩
  · intro rc hrc p type hmem htype
    obtain ⟨_,_,_,hs⟩ := hsurvey rc hrc
    obtain ⟨_,_,hi⟩ := hs.types.of_mem hmem
    cases hi with
    | store hp hscalar => rwa [← h.placeType_unique trivial hp htype]
  · intro rc hrc pc p element rank type hpc htype
    obtain ⟨_,_,_,hs⟩ := hsurvey rc hrc
    obtain ⟨type',ns,below,hp,_,hrank,hsized,hnotes⟩ := exists_sized hs.sited hpc
    obtain rfl := h.placeType_unique trivial hp htype
    exact ⟨ns,below,hrank.trans hsized.length_eq,hsized,hnotes⟩

end assembled
end Lowering

namespace Machine

variable {m : Module} {o : Operations} {lib : Library} {called : List RoutineCode}

inductive State.StepCase (m : Module) (o : Operations) (lib : Library) (t : State) : State → Prop
  | next {c : Config} {s : Store} (h : Machine.step o t.routine.code t.config t.store = .next c s) :
    StepCase m o lib t { t with config := c, store := s }
  | call {entry : String} {args : List Value} {returns : Bool} {c : Config} {callee : RoutineCode}
    (h : Machine.step o t.routine.code t.config t.store = .call (.routine entry) args returns c)
    (hcallee : routine? m entry = some callee) :
    StepCase m o lib t { t with
      routine := callee
      config := enter callee args
      callers := ⟨t.routine,c,returns⟩ :: t.callers }
  | runtime {name : String} {args : List Value} {returns : Bool} {c d : Config} {s : Store}
    {v : Option Value} {events : List Event}
    (h : Machine.step o t.routine.code t.config t.store = .call (.runtime name) args returns c)
    (hlib : lib events name args t.store = .resume s v) (hd : c.resume returns v = some d) :
    StepCase m o lib t { t with config := d, store := s, events }
  | ret {v : Option Value} {caller : Caller} {rest : List Caller} {d : Config}
    (h : Machine.step o t.routine.code t.config t.store = .ret v) (hcallers : t.callers = caller :: rest)
    (hd : caller.config.resume caller.returns v = some d) :
    StepCase m o lib t { t with routine := caller.routine, config := d, callers := rest }

theorem State.step_cases {t t' : State} (h : t.step m o lib = .running t') :
    t.StepCase m o lib t' := by
  unfold State.step State.perform at h
  split at h
  · next hs =>
    cases h
    exact .next hs
  · next hs =>
    split at h
    · cases h
    · next hcallee =>
      cases h
      exact .call hs hcallee
  · next hs =>
    simp only at h
    split at h
    · cases h
    · next hlib =>
      unfold State.goOn at h
      split at h
      · next hd =>
        cases h
        exact .runtime hs hlib hd
      · cases h
  · next hs =>
    split at h
    · cases h
    · next hcallers =>
      unfold State.goOn at h
      split at h
      · next hd =>
        cases h
        exact .ret hs hcallers hd
      · cases h
  · cases h
  · cases h

/-- The library neither gives a variable another array nor changes the extents of one. -/
def Library.KeepsArrays (lib : Library) : Prop :=
  ∀ events name args s t v, lib events name args s = .resume t v →
    (∀ g a, t.globals g = .array a ↔ s.globals g = .array a) ∧
    ∀ (a : Nat) (b : Block), s.arrays[a]? = some b →
      ∃ b', t.arrays[a]? = some b' ∧ b'.extents = b.extents

theorem Library.KeepsArrays.keeps (hlib : lib.KeepsArrays) {events : List Event} {name : String}
    {args : List Value} {s t : Store} {v : Option Value} (h : lib events name args s = .resume t v)
    (arrays : String → Prop) : s.Keeps arrays t :=
  ⟨fun g a _ => ((hlib _ _ _ _ _ _ h).1 g a).mpr,(hlib _ _ _ _ _ _ h).2⟩

/-- The notes are right about the stack of a waiting routine, and the result of its call is to come. -/
structure Caller.Noted (m : Module) (s : Store) (x : Caller) : Prop where
  mem : x.routine ∈ m.routines
  notes : ∃ ns, x.routine.code.notesAt x.config.pc = .replicate x.returns.toNat .unknown ++ ns ∧
    StackCompiler.Noted m.DeclaresArray x.config.slots s ns x.config.stack

theorem Caller.Noted.keeps {x : Caller} {s t : Store} (h : x.Noted m s)
    (hs : s.Keeps m.DeclaresArray t) : x.Noted m t := by
  obtain ⟨ns,hns,hnoted⟩ := h.notes
  exact ⟨h.mem,ns,hns,hnoted.keeps hs⟩

theorem Caller.Noted.resume {x : Caller} {s : Store} (h : x.Noted m s) {v : Option Value} {d : Config}
    (hd : x.config.resume x.returns v = some d) :
    StackCompiler.Noted m.DeclaresArray d.slots s (x.routine.code.notesAt d.pc) d.stack := by
  obtain ⟨ns,hns,hnoted⟩ := h.notes
  obtain ⟨routine,config,returns⟩ := x
  cases returns with
  | false =>
    cases hd
    rw [hns]
    exact hnoted
  | true =>
    cases v with
    | none => cases hd
    | some v =>
      cases hd
      rw [show _ = Note.unknown :: ns from hns]
      exact .cons (Note.holds_unknown _ _ s v) hnoted

/-- The notes are right about the stacks of all routines that run or wait. All of them but the first
were called. -/
structure State.Noted (m : Module) (called : List RoutineCode) (t : State) : Prop where
  mem : t.routine ∈ m.routines
  notes : StackCompiler.Noted m.DeclaresArray t.config.slots t.store
    (t.routine.code.notesAt t.config.pc) t.config.stack
  callers : ∀ x ∈ t.callers, x.Noted m t.store
  called : ∀ rc ∈ (t.routine :: t.callers.map Caller.routine).dropLast, rc ∈ called

section steps

variable {rc : RoutineCode} {c d : Config} {s t : Store}

theorem noted_next (hm : m.Steady called) (hrc : rc ∈ m.routines)
    (h : StackCompiler.Noted m.DeclaresArray c.slots s (rc.code.notesAt c.pc) c.stack)
    (hstep : step o rc.code c s = .next d t) :
    StackCompiler.Noted m.DeclaresArray d.slots t (rc.code.notesAt d.pc) d.stack := by
  obtain ⟨i,hi,hcases⟩ := step_eq_next hstep
  obtain ⟨ms,ms',hms,hmark,_⟩ := (hm.disciplined rc hrc).marksAt hi
  have hlen := Code.length_notesAt hms
  rcases hcases with ⟨stack,assigned,he,rfl⟩ | ⟨l,stack,n,he,hn,rfl,rfl⟩
  · rw [Code.notesAt_succ hi]
    exact h.exec hmark hlen (fun g dim hg => hm.checks rc hrc g dim (hg ▸ List.mem_of_getElem? hi)) he
  · have hsuits := exec_suits o c.slots t hmark (h.length_eq.symm.trans hlen)
    rw [he] at hsuits
    rw [(hm.disciplined rc hrc).notesAt_label (getElem?_of_target? hn),
      show stack = [] from hsuits]
    exact .nil

theorem noted_call {target : CallTarget} {args : List Value} {returns : Bool} (hrc : rc ∈ m.routines)
    (h : StackCompiler.Noted m.DeclaresArray c.slots s (rc.code.notesAt c.pc) c.stack)
    (hstep : step o rc.code c s = .call target args returns d) :
    Caller.Noted m s ⟨rc,d,returns⟩ ∧ ∃ argc, .call target argc returns ∈ rc.code := by
  obtain ⟨i,stack,hi,he,rfl⟩ := step_eq_call hstep
  obtain ⟨argc,rfl,_,hnote,hrest⟩ := h.call he
  refine ⟨⟨hrc,_,?_,hrest⟩,argc,List.mem_of_getElem? hi⟩
  exact (Code.notesAt_succ hi).trans hnote

/-- A routine that was called leaves the array variables of the outermost scope as they are. -/
theorem keeps_next (hm : m.Steady called) (hrc : rc ∈ m.routines) (hcalled : rc ∈ called)
    (hstep : step o rc.code c s = .next d t) : s.Keeps m.DeclaresArray t := by
  obtain ⟨i,hi,⟨stack,assigned,he,_⟩ | ⟨_,_,_,_,_,_,rfl⟩⟩ := step_eq_next hstep
  · have hmem := List.mem_of_getElem? hi
    refine (writes_exec he).keeps (fun g hg => hm.stores rc hrc g (hg ▸ hmem)) fun g element n hg => ?_
    exact absurd (hg ▸ hmem) (hm.allocs rc hcalled g element n)
  · exact .refl _ t

end steps

theorem State.Noted.step {t t' : State} (h : t.Noted m called) (hm : m.Steady called)
    (hlib : lib.KeepsArrays) (hstep : t.step m o lib = .running t') : t'.Noted m called := by
  cases State.step_cases hstep with
  | next hs =>
    refine ⟨h.mem,noted_next hm h.mem h.notes hs,fun x hx => ?_,h.called⟩
    have hcalled : t.routine ∈ called := by
      refine h.called _ ?_
      obtain ⟨y,rest,hrest⟩ := List.exists_cons_of_ne_nil (List.ne_nil_of_mem hx)
      rw [hrest,List.map_cons,List.dropLast_cons_cons]
      exact List.mem_cons_self
    exact (h.callers x hx).keeps (keeps_next hm h.mem hcalled hs)
  | @call entry _ _ _ callee hs hcallee =>
    obtain ⟨hnoted,argc,hcall⟩ := noted_call h.mem h.notes hs
    obtain ⟨hmem,hcalled⟩ := hm.calls _ h.mem entry argc _ hcall callee hcallee
    refine ⟨hmem,?_,fun x hx => ?_,fun rc hrc => ?_⟩
    · rw [show (enter callee _).pc = 0 from rfl,Code.notesAt_zero]
      exact .nil
    · rcases List.mem_cons.mp hx with rfl | hx
      · exact hnoted
      · exact h.callers x hx
    · rw [List.map_cons,List.dropLast_cons_cons] at hrc
      rcases List.mem_cons.mp hrc with rfl | hrc
      · exact hcalled
      · exact h.called rc hrc
  | runtime hs hreply hd =>
    obtain ⟨hnoted,_⟩ := noted_call h.mem h.notes hs
    have hkeeps := hlib.keeps hreply m.DeclaresArray
    refine ⟨h.mem,(hnoted.keeps hkeeps).resume hd,fun x hx => ?_,h.called⟩
    exact (h.callers x hx).keeps hkeeps
  | @ret v caller rest d hs hcallers hd =>
    have hcaller := h.callers caller (hcallers ▸ List.mem_cons_self)
    refine ⟨hcaller.mem,hcaller.resume hd,fun x hx => ?_,fun rc hrc => ?_⟩
    · exact h.callers x (hcallers ▸ List.mem_cons_of_mem _ hx)
    · refine h.called rc ?_
      rw [hcallers,List.map_cons,List.dropLast_cons_cons]
      exact List.mem_cons_of_mem _ hrc

/-- If the value is an array, it has the fixed extents of the type. -/
def Store.Fits (s : Store) (type : Ty) (v : Value) : Prop :=
  ∀ (a dim : Nat) (k : UInt64), v = .array a → type.dimensions[dim]? = some (.fixed k) →
    ∃ b, s.arrays[a]? = some b ∧ b.extents[dim]? = some k.toInt64

section fits

variable {arrays : String → Prop} {s t : Store} {type : Ty} {v : Value}

theorem Store.Fits.keeps (h : s.Fits type v) (hs : s.Keeps arrays t) : t.Fits type v := by
  intro a dim k ha hk
  obtain ⟨b,hb,hextent⟩ := h a dim k ha hk
  obtain ⟨b',hb',hsame⟩ := hs.extents a b hb
  exact ⟨b',hb',hsame ▸ hextent⟩

theorem Store.Fits.inBounds (h : s.Fits type v) {b : Block} (hb : s.block? v = some b) {dim : Nat}
    {k : UInt64} {l : Int64} (hk : type.dimensions[dim]? = some (.fixed k)) (hone : 1 ≤ l)
    (hle : l ≤ k.toInt64) : s.inBounds v dim (.scalar (.integer l)) = true := by
  cases v with
  | array a =>
    obtain ⟨b',hb',hextent⟩ := h a dim k rfl hk
    exact Store.inBounds_iff.mpr ⟨a,b',_,l,rfl,hb',hextent,rfl,hone,hle⟩
  | scalar | nothing => cases hb

theorem Store.fits_of_isScalar (h : type.isScalar = true) : s.Fits type v := by
  intro a dim k _ hk
  rw [List.isEmpty_iff.mp h] at hk
  cases hk

theorem Store.fits_of_ne_array (h : ∀ a, v ≠ .array a) : s.Fits type v :=
  fun a _ _ ha => absurd ha (h a)

theorem Value.zero_ne_array (type : Ty) (a : Nat) : Value.zero type ≠ .array a := by
  unfold Value.zero
  split
  · nofun
  · cases Literal.zero type.base <;> nofun

end fits

/-- A call of a routine that is next passes arrays of the extents that the parameters ask for. -/
def State.CallsFit (m : Module) (o : Operations) (t : State) : Prop :=
  ∀ entry args returns c callee,
    Machine.step o t.routine.code t.config t.store = .call (.routine entry) args returns c →
    routine? m entry = some callee → ∀ n v type, n < callee.params → args[n]? = some v →
      callee.frame.type? n = some type → t.store.Fits type v

/-- The arrays in the variables of a routine have the fixed extents of their types. -/
def FrameFits (rc : RoutineCode) (slots : Slot → Value) (s : Store) : Prop :=
  ∀ n type, rc.frame.type? n = some type → s.Fits type (slots n)

/-- The arrays in all variables have the fixed extents of their types. -/
structure State.Fitted (m : Module) (t : State) : Prop where
  globals : ∀ g type, (g,type) ∈ m.globals → t.store.Fits type (t.store.globals g)
  frame : FrameFits t.routine t.config.slots t.store
  callers : ∀ x ∈ t.callers, FrameFits x.routine x.config.slots t.store

theorem State.Fitted.place {t : State} (h : t.Fitted m) {p : Place} {type : Ty}
    (hp : m.PlaceType t.routine p type) : t.store.Fits type (read t.config.slots t.store p) := by
  cases p with
  | slot n => exact h.frame n type hp
  | global g => exact h.globals g type hp

section steps

variable {rc : RoutineCode} {c d : Config} {slots : Slot → Value} {s t : Store}
  {stack stack' : List Value} {i : Instr} {assigned : Option (Slot × Value)} {pc : Nat}

/-- The values below the notes on top and before the rest, from the first on. -/
theorem noted_middle {arrays : String → Prop} (top : List Note) {ns below : List Note}
    (h : StackCompiler.Noted arrays slots s (top ++ (ns.reverse ++ below)) stack) :
    StackCompiler.Noted arrays slots s ns ((stack.drop top.length).take ns.length).reverse := by
  have hmiddle := List.forall₂_take ns.length (List.forall₂_drop top.length h)
  rw [List.drop_left,List.take_left' (List.length_reverse)] at hmiddle
  have hreverse := List.rel_reverse hmiddle
  rwa [List.reverse_reverse] at hreverse

theorem forall₂_of_mapM {α β : Type} {f : α → Option β} {xs : List α} {ys : List β}
    (h : xs.mapM f = some ys) : List.Forall₂ (fun x y => f x = some y) xs ys := by
  induction xs generalizing ys with
  | nil =>
    cases h
    exact .nil
  | cons x xs ih =>
    rw [List.mapM_cons] at h
    simp only [Option.bind_eq_bind,Option.bind_eq_some_iff,Option.pure_def,Option.some.injEq] at h
    obtain ⟨y,hy,zs,hzs,rfl⟩ := h
    exact .cons hy (ih hzs)

theorem fits_alloc {arrays : String → Prop} {p : Place} {element : BaseType} {ns below : List Note}
    {type : Ty} (hsized : Lowering.Sized type.dimensions ns)
    (hnoted : StackCompiler.Noted arrays slots s (ns.reverse ++ below) stack)
    (h : Writes s stack (.alloc p element ns.length) assigned t) :
    t.Fits type (read (assign slots assigned) t p) := by
  cases h with
  | nothing hi => exact absurd rfl (hi p element ns.length)
  | alloc hnew =>
    obtain ⟨b,hextents,rfl,rfl⟩ := Store.allocate?_eq_some hnew
    have hvalues := noted_middle [] hnoted
    have hread : read (assign slots (write { s with arrays := s.arrays ++ [b] }
        (.array s.arrays.length) p).1) (write { s with arrays := s.arrays ++ [b] }
        (.array s.arrays.length) p).2 p = .array s.arrays.length := by
      cases p <;> exact Function.update_self _ _ _
    rw [hread]
    intro a dim k ha hk
    obtain rfl := Value.array.inj ha
    refine ⟨b,by cases p <;> simp [write],?_⟩
    obtain ⟨n,hn,hvalue⟩ := exists_of_getElem? hsized hk
    obtain ⟨v,hv,hholds⟩ := exists_of_getElem? hvalues hn
    obtain ⟨extent,hextent,hint⟩ := exists_of_getElem? (forall₂_of_mapM hextents) hv
    rw [hholds.value _ (hvalue k rfl)] at hint
    rw [hextent,← show some k.toInt64 = some extent from hint]

/-- One instruction keeps the arrays in variables to the fixed extents of their types. -/
theorem fits_exec {arrays : String → Prop} (hm : m.Sizes) (hrc : rc ∈ m.routines)
    (hi : rc.code[pc]? = some i)
    (hnoted : StackCompiler.Noted arrays slots s (rc.code.notesAt pc) stack)
    (h : ∀ p type, m.PlaceType rc p type → s.Fits type (read slots s p))
    (hw : Writes s stack i assigned t) {p : Place} {type : Ty} (hp : m.PlaceType rc p type) :
    t.Fits type (read (assign slots assigned) t p) := by
  have hkeeps : s.Keeps (fun _ => False) t := hw.keeps (fun _ _ => id) fun _ _ _ _ => id
  rcases hw.read slots p with hsame | rfl | ⟨element,rank,rfl⟩
  · rw [hsame]
    exact (h p type hp).keeps hkeeps
  · exact Store.fits_of_isScalar (hm.stores rc hrc p type (List.mem_of_getElem? hi) hp)
  · obtain ⟨ns,below,rfl,hsized,hnotes⟩ := hm.allocs rc hrc pc p element rank type hi hp
    rw [hnotes] at hnoted
    exact fits_alloc hsized hnoted hw

theorem fits_next {arrays : String → Prop} (hm : m.Sizes) (hrc : rc ∈ m.routines)
    (hnoted : StackCompiler.Noted arrays c.slots s (rc.code.notesAt c.pc) c.stack)
    (h : ∀ p type, m.PlaceType rc p type → s.Fits type (read c.slots s p))
    (hstep : step o rc.code c s = .next d t) :
    (∀ p type, m.PlaceType rc p type → t.Fits type (read d.slots t p)) ∧
      s.Keeps (fun _ => False) t := by
  obtain ⟨i,hi,⟨stack,assigned,he,rfl⟩ | ⟨_,_,_,_,_,rfl,rfl⟩⟩ := step_eq_next hstep
  · have hw := writes_exec he
    exact ⟨fun p type hp => fits_exec hm hrc hi hnoted h hw hp,
      hw.keeps (fun _ _ => id) fun _ _ _ _ => id⟩
  · exact ⟨h,.refl _ t⟩

theorem slots_of_call {target : CallTarget} {args : List Value} {returns : Bool}
    (h : step o rc.code c s = .call target args returns d) : d.slots = c.slots := by
  obtain ⟨_,_,_,_,rfl⟩ := step_eq_call h
  rfl

theorem frameFits_enter {args : List Value}
    (h : ∀ n v type, n < rc.params → args[n]? = some v → rc.frame.type? n = some type →
      s.Fits type v) : FrameFits rc (enter rc args).slots s := by
  intro n type htype
  simp only [enter]
  split
  · next hn =>
    cases hv : args[n]? with
    | none =>
      rw [List.getD_eq_getElem?_getD,hv]
      exact Store.fits_of_ne_array (by simp)
    | some v =>
      rw [List.getD_eq_getElem?_getD,hv]
      exact h n v type hn hv htype
  · obtain ⟨info,hinfo,_⟩ := Option.map_eq_some_iff.mp htype
    rw [hinfo]
    exact Store.fits_of_ne_array (Value.zero_ne_array info.type)

end steps

theorem FrameFits.keeps {rc : RoutineCode} {slots : Slot → Value} {s t : Store}
    {arrays : String → Prop} (h : FrameFits rc slots s) (hs : s.Keeps arrays t) :
    FrameFits rc slots t :=
  fun n type hn => (h n type hn).keeps hs

theorem State.Fitted.step {t t' : State} (h : t.Fitted m) (hm : m.Sizes) (hn : t.Noted m called)
    (hlib : lib.KeepsArrays) (hcalls : t.CallsFit m o) (hstep : t.step m o lib = .running t') :
    t'.Fitted m := by
  cases State.step_cases hstep with
  | next hs =>
    obtain ⟨hfits,hkeeps⟩ := fits_next hm hn.mem hn.notes (fun _ _ hp => h.place hp) hs
    refine ⟨fun g type hg => hfits (.global g) type hg,fun n type hn => hfits (.slot n) type hn,?_⟩
    exact fun x hx => (h.callers x hx).keeps hkeeps
  | @call entry args returns c callee hs hcallee =>
    refine ⟨h.globals,frameFits_enter (hcalls entry args returns c callee hs hcallee),fun x hx => ?_⟩
    rcases List.mem_cons.mp hx with rfl | hx
    · rw [FrameFits,slots_of_call hs]
      exact h.frame
    · exact h.callers x hx
  | @runtime name args returns c d s v events hs hreply hd =>
    have hkeeps := hlib.keeps hreply fun _ => False
    refine ⟨fun g type hg => ?_,?_,fun x hx => (h.callers x hx).keeps hkeeps⟩
    · intro a dim k ha hk
      have hold := ((hlib _ _ _ _ _ _ hreply).1 g a).mp ha
      exact ((h.globals g type hg).keeps hkeeps) a dim k hold hk
    · change FrameFits t.routine d.slots s
      rw [(Config.resume_eq_some hd).2.1,slots_of_call hs]
      exact h.frame.keeps hkeeps
  | @ret v caller rest d hs hcallers hd =>
    refine ⟨h.globals,?_,fun x hx => h.callers x (hcallers ▸ List.mem_cons_of_mem _ hx)⟩
    change FrameFits caller.routine d.slots t.store
    rw [(Config.resume_eq_some hd).2.1]
    exact h.callers caller (hcallers ▸ List.mem_cons_self)

end Machine
end StackCompiler
