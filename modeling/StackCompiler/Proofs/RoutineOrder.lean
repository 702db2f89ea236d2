import StackCompiler.Proofs.CallLinks
import StackCompiler.Proofs.CaseBlindness
import StackCompiler.Proofs.EvaluatedBodies

/-! The order of the routines of a unit does not matter.
Everything of the outermost scope is declared before any code is made, so a routine finds the same
names wherever it stands. Its code is compared with the code it had in the first order; only the
numbers of its labels depend on what came before. -/
namespace StackCompiler

/-- The same routine, with its labels numbered differently, different labels differently. -/
def RoutineCode.Renumbered (r r' : RoutineCode) : Prop :=
  ∃ f : Label → Label, Function.Injective f ∧ r' = r.relabel f

theorem RoutineCode.Renumbered.refl (r : RoutineCode) : r.Renumbered r :=
  ⟨id,Function.injective_id,(RoutineCode.relabel_eq_self (fun _ => rfl) r).symm⟩

theorem RoutineCode.Renumbered.name {r r' : RoutineCode} (h : r.Renumbered r') : r'.name = r.name := by
  obtain ⟨f,_,rfl⟩ := h
  rfl

theorem RoutineCode.Renumbered.optimize {r r' : RoutineCode} (h : r.Renumbered r') (p : Passes) :
    (p.optimize r).Renumbered (p.optimize r') := by
  obtain ⟨f,hf,rfl⟩ := h
  exact ⟨f,hf,p.optimize_relabel hf r⟩

def Module.routineNamed? (m : Module) (name : String) : Option RoutineCode :=
  (m.entryPoints.lookup name).bind (m.routines[·]?)

section tables

theorem find?_key_of_perm {xs ys : List Symbol} (h : ys.Perm xs) (hd : (xs.map Symbol.key).Nodup)
    (key : String) : ys.find? (·.key == key) = xs.find? (·.key == key) := by
  cases hx : xs.find? (·.key == key) with
  | none =>
    rw [List.find?_eq_none] at hx ⊢
    exact fun x hmem => hx x (h.subset hmem)
  | some x =>
    have hmem := List.mem_of_find?_eq_some hx
    have hkey := List.find?_some hx
    cases hy : ys.find? (·.key == key) with
    | none => exact absurd hkey (List.find?_eq_none.mp hy x (h.symm.subset hmem))
    | some y =>
      have hmem' := h.subset (List.mem_of_find?_eq_some hy)
      have hkey' := List.find?_some hy
      simp only [beq_iff_eq] at hkey hkey'
      rw [List.inj_on_of_nodup_map hd hmem' hmem (hkey'.trans hkey.symm)]

/-- The order of symbols that are no variables does not matter. -/
theorem SymbolTable.alike_perm {t : SymbolTable} {xs ys : List Symbol} (h : ys.Perm xs)
    (hd : SymbolTable.Distinct { t with symbols := t.symbols ++ xs })
    (hcls : ∀ x ∈ xs, x.cls ≠ .variable) :
    SymbolTable.Alike t.caseSensitive { t with symbols := t.symbols ++ xs }
      { t with symbols := t.symbols ++ ys } := by
  refine ⟨rfl,rfl,fun key => ?_,?_⟩
  · have hfind := find?_key_of_perm (h.append_left t.symbols) hd key
    exact congrArg (Option.map Symbol.bare) hfind
  · have hnone : ∀ zs : List Symbol, zs ⊆ xs → zs.filter (·.cls == .variable) = [] := by
      intro zs hzs
      rw [List.filter_eq_nil_iff]
      intro z hz
      simpa using hcls z (hzs hz)
    unfold Lowering.globals
    rw [List.filter_append,List.filter_append,hnone xs (List.Subset.refl _),hnone ys h.subset]

theorem SymbolTable.Distinct.lookup {t : SymbolTable} {x : Symbol} {more : List Symbol}
    (h : SymbolTable.Distinct { t with symbols := t.symbols ++ t.keyed x :: more }) :
    t.lookup x.name = none := by
  unfold Distinct at h
  rw [List.map_append,List.map_cons,List.nodup_append] at h
  unfold SymbolTable.lookup get?
  rw [List.find?_eq_none]
  intro y hy
  have hkey : y.key ≠ t.normalize x.name := h.2.2 _ (List.mem_map_of_mem hy) _ List.mem_cons_self
  simpa using hkey

end tables

namespace Lowering

open Assemble
open Lower (changes_of_gives)

/-- Programs with the same names; labels of the second have numbers higher by a constant. -/
def higher (rule : Bool) (shift : Nat) : Pairing := ⟨rule,id,shift,fun _ => rfl⟩

section routines

variable {language : Language} {rule : Bool}

mutual

theorem entries_routine : ∀ (x : StackCompiler.Routine) {entry : String} {u : Unit} {p p' : Progress},
    (routine language entry x).Gives p u p' → p'.errors = [] → p.scopes.caseSensitive = rule →
    p'.routines.map RoutineCode.name = p.routines.map RoutineCode.name ++ x.entries rule entry
  | ⟨name,discipline,params,returns,body,nested,line⟩, entry, u, p, p', h, he, hrule => by
    obtain ⟨b,code,s,v,q,table,scopes,hbody,hs,_,hroutines,hpop,rfl⟩ :=
      routine_ok h he (grows_routines language nested)
    have hchanges := changes_of_gives hbody (stays_bodyCode (stays_stmts _ _ _))
    have hcase : s.scopes.caseSensitive = rule :=
      hchanges.caseSensitive.trans (b.caseSensitive_start.trans hrule)
    change q.routines.map RoutineCode.name = _
    rw [entries_routines nested hroutines he hcase,Routine.entries]
    change (p.routines ++ [_]).map RoutineCode.name ++ _ = _
    rw [List.map_append,List.append_assoc]
    rfl

theorem entries_routines : ∀ (xs : List StackCompiler.Routine) {parent : String} {u : Unit}
    {p p' : Progress}, (routines language parent xs).Gives p u p' → p'.errors = [] →
    p.scopes.caseSensitive = rule →
    p'.routines.map RoutineCode.name =
      p.routines.map RoutineCode.name ++ Routine.entriesIn rule parent xs
  | [], _, _, _, _, h, _, _ => by
    rw [routines] at h
    rw [(gives_pure.mp h).2,Routine.entriesIn,List.append_nil]
  | x :: rest, _, _, _, _, h, he, hrule => by
    rw [routines] at h
    simp only [gives_bind,gives_keyOf] at h
    obtain ⟨_,p,⟨rfl,rfl⟩,_,q,hx,h⟩ := h
    have hq := (grows_routines language rest h).errors_nil he
    have hcase : q.scopes.caseSensitive = rule :=
      (ScopeStack.caseSensitive_of_forget (forget_routine x hx hq)).trans hrule
    rw [entries_routines rest h he hcase,entries_routine x hx hq hrule,Routine.entriesIn,
      ScopeStack.normalize_eq,hrule,List.append_assoc]

end

/-- The entry name of a routine of the outermost scope, and those of the routines inside it. -/
def topEntries (rule : Bool) (x : StackCompiler.Routine) : List String :=
  x.entries rule (normalize rule x.name)

/-- The routine was put into code without diagnostics, in these scopes, on the way to these routines. -/
def Placed (language : Language) (rule : Bool) (ground : ScopeStack) (final : List RoutineCode)
    (x : StackCompiler.Routine) : Prop :=
  ∃ p p', (routine language (normalize rule x.name) x).Gives p () p' ∧ p.Listed ∧ p.errors = [] ∧
    p'.errors = [] ∧ p.scopes.forget = ground.forget ∧ p'.routines <+: final

/-- Routines of the outermost scope are all put into code in the scopes of the first. -/
theorem placed_topLevel : ∀ (xs : List StackCompiler.Routine) {u : Unit} {p p' : Progress},
    (topLevel language xs).Gives p u p' → p.Listed → p'.errors = [] → p.scopes.caseSensitive = rule →
    p'.scopes.forget = p.scopes.forget ∧
      p'.routines.map RoutineCode.name =
        p.routines.map RoutineCode.name ++ xs.flatMap (topEntries rule) ∧
      ∀ x ∈ xs, Placed language rule p.scopes p'.routines x
  | [], _, _, _, h, _, _, _ => by
    rw [topLevel] at h
    rw [(gives_pure.mp h).2]
    exact ⟨rfl,(List.append_nil _).symm,by simp⟩
  | x :: rest, _, _, _, h, hlisted, he, hrule => by
    simp only [topLevel,gives_bind,gives_keyOf] at h
    obtain ⟨_,p,⟨rfl,rfl⟩,_,q,hx,h⟩ := h
    have hgrows := grows_topLevel language rest h
    have hq := hgrows.errors_nil he
    have hgrown := grows_routine language x hx
    rw [ScopeStack.normalize_eq,hrule] at hx
    have hscopes := forget_routine x hx hq
    have hcase : q.scopes.caseSensitive = rule :=
      (ScopeStack.caseSensitive_of_forget hscopes).trans hrule
    obtain ⟨hscopes',hnames',hplaced⟩ := placed_topLevel rest h (hgrown.listed hlisted) he hcase
    refine ⟨hscopes'.trans hscopes,?_,?_⟩
    · rw [hnames',entries_routine x hx hq hrule,List.flatMap_cons,topEntries,List.append_assoc]
    · intro y hy
      rcases List.mem_cons.mp hy with rfl | hy
      · exact ⟨p,q,hx,hlisted,hgrown.errors_nil hq,hq,rfl,hgrows.routines⟩
      · obtain ⟨r,r',hr,hl,hr₁,hr₂,hforget,hfinal⟩ := hplaced y hy
        exact ⟨r,r',hr,hl,hr₁,hr₂,hforget.trans hscopes,hfinal⟩

/-- A routine that was placed before is put into code again, after other routines: without diagnostics,
and with the same code up to the numbers of labels. -/
theorem Placed.again {ground : ScopeStack} {final : List RoutineCode} {x : StackCompiler.Routine}
    (h : Placed language rule ground final x) (hfinal : (final.map RoutineCode.name).Nodup)
    {v : Unit} {q q' : Progress} (hq : (routine language (normalize rule x.name) x).Gives q v q')
    (hlisted : q.Listed) (hscopes : ground.Alike rule q.scopes) (herrors : q.errors = [])
    (hfree : ∀ name ∈ topEntries rule x, ¬ Taken q.routines name) :
    q'.errors = [] ∧ ∃ added, q'.routines = q.routines ++ added ∧
      ∀ y ∈ added, ∃ z ∈ final, z.Renumbered y := by
  obtain ⟨p,p',hp,hlisted',he,he',hforget,hpart⟩ := h
  have halike : p.scopes.Alike rule q.scopes := hscopes.of_forget hforget
  have hfree' : ∀ name ∈ topEntries rule x, ¬ Taken p.routines name := by
    rintro name hname ⟨y,hy,rfl⟩
    have hnodup := (hpart.map RoutineCode.name).sublist.nodup hfinal
    rw [entries_routine x hp he' halike.outermost.table.left] at hnodup
    exact (List.nodup_append.mp hnodup).2.2 _ (List.mem_map_of_mem hy) _ hname rfl
  have htaken : ∀ name ∈ topEntries rule x, Taken p.routines name ↔ Taken q.routines name :=
    fun name hname => iff_of_false (hfree' name hname) (hfree name hname)
  have hrefl : ∀ l : List RoutineCode, l = l ++ [] := fun l => (List.append_nil l).symm
  rcases Nat.le_total p.nextLabel q.nextLabel with hle | hle
  · have htwin : p.Twin (higher rule (q.nextLabel - p.nextLabel)) p.routines q.routines q :=
      ⟨halike,(Nat.add_sub_of_le hle).symm,by rw [he,herrors],⟨hlisted',hlisted⟩,[],[],hrefl _,hrefl _,
        rfl,fun _ => rfl⟩
    have htwin' := twin_routine language x htwin hp (by rwa [higher,StackCompiler.Routine.respell_id])
      htaken
    obtain ⟨added,added',hadded,hadded',_,hsame⟩ := htwin'.routines
    refine ⟨htwin'.errors_nil.mpr he',added',hadded',fun y hy => ?_⟩
    rw [hsame he'] at hy
    obtain ⟨z,hz,rfl⟩ := List.mem_map.mp hy
    refine ⟨z,hpart.subset (hadded ▸ List.mem_append_right _ hz),_,?_,rfl⟩
    exact fun a b hab => Nat.add_right_cancel hab
  · have htwin : q.Twin (higher rule (p.nextLabel - q.nextLabel)) q.routines p.routines p :=
      ⟨halike.symm,(Nat.add_sub_of_le hle).symm,by rw [he,herrors],⟨hlisted,hlisted'⟩,[],[],hrefl _,
        hrefl _,rfl,fun _ => rfl⟩
    have htwin' := twin_routine language x htwin hq (by rwa [higher,StackCompiler.Routine.respell_id])
      fun name hname => (htaken name hname).symm
    obtain ⟨added,added',hadded,hadded',_,hsame⟩ := htwin'.routines
    have hq' := htwin'.errors_nil.mp he'
    refine ⟨hq',added,hadded,fun y hy => ?_⟩
    obtain ⟨f,hf,hback⟩ := Code.exists_relabel_eq (p.nextLabel - q.nextLabel) y.code
    refine ⟨y.relabel (higher rule (p.nextLabel - q.nextLabel)).number,?_,f,hf,?_⟩
    · apply hpart.subset
      rw [hadded',hsame hq']
      exact List.mem_append_right _ (List.mem_map_of_mem hy)
    · exact congrArg (fun code => { y with code }) hback.symm

/-- Routines that were placed before are put into code again, in any order. -/
theorem topLevel_again {ground : ScopeStack} {final : List RoutineCode}
    (hfinal : (final.map RoutineCode.name).Nodup) : ∀ (ys : List StackCompiler.Routine) {v : Unit}
    {q q' : Progress}, (∀ y ∈ ys, Placed language rule ground final y) →
    (topLevel language ys).Gives q v q' → q.Listed → ground.Alike rule q.scopes → q.errors = [] →
    (q.routines.map RoutineCode.name ++ ys.flatMap (topEntries rule)).Nodup →
    q'.errors = [] ∧ ∃ added, q'.routines = q.routines ++ added ∧
      ∀ y ∈ added, ∃ z ∈ final, z.Renumbered y
  | [], _, _, _, _, h, _, _, he, _ => by
    rw [topLevel] at h
    rw [(gives_pure.mp h).2]
    exact ⟨he,[],(List.append_nil _).symm,by simp⟩
  | y :: rest, _, _, _, hplaced, h, hlisted, hscopes, he, hnodup => by
    simp only [topLevel,gives_bind,gives_keyOf] at h
    obtain ⟨_,q,⟨rfl,rfl⟩,_,q₁,hy,h⟩ := h
    have hrule : q.scopes.caseSensitive = rule := hscopes.outermost.table.right
    rw [ScopeStack.normalize_eq,hrule] at hy
    rw [List.flatMap_cons] at hnodup
    have hfree : ∀ name ∈ topEntries rule y, ¬ Taken q.routines name := by
      rintro name hname ⟨z,hz,rfl⟩
      exact (List.nodup_append.mp hnodup).2.2 _ (List.mem_map_of_mem hz) _
        (List.mem_append_left _ hname) rfl
    obtain ⟨he₁,first,hfirst,hsame⟩ :=
      (hplaced y List.mem_cons_self).again hfinal hy hlisted hscopes he hfree
    have hforget := forget_routine y hy he₁
    obtain ⟨he',more,hmore,hsame'⟩ := topLevel_again hfinal rest
      (fun z hz => hplaced z (List.mem_cons_of_mem _ hz)) h
      ((grows_routine language y hy).listed hlisted) (hscopes.symm.of_forget hforget).symm he₁
      (by rwa [entries_routine y hy he₁ hrule,List.append_assoc])
    refine ⟨he',first ++ more,by rw [hmore,hfirst,List.append_assoc],fun z hz => ?_⟩
    rcases List.mem_append.mp hz with hz | hz
    · exact hsame z hz
    · exact hsame' z hz

/-- The routines of the outermost scope, in two orders, after the same main program. -/
theorem topLevel_perm {xs ys : List StackCompiler.Routine} {v w : Unit} {p p' q q' : Progress}
    (hperm : ys.Perm xs) (hscopes : p.scopes.Alike rule q.scopes) (hroutines : q.routines = p.routines)
    (hlisted : p.Listed ∧ q.Listed) (hp : (topLevel language xs).Gives p v p') (hp' : p'.errors = [])
    (hnames : (p'.routines.map RoutineCode.name).Nodup) (hq : (topLevel language ys).Gives q w q')
    (he : q.errors = []) :
    q'.errors = [] ∧ p'.scopes.Alike rule q'.scopes ∧
      (q'.routines.map RoutineCode.name).Perm (p'.routines.map RoutineCode.name) ∧
      ∀ y ∈ q'.routines, ∃ z ∈ p'.routines, z.Renumbered y := by
  obtain ⟨hforget,hentries,hplaced⟩ := placed_topLevel xs hp hlisted.1 hp' hscopes.outermost.table.left
  have hentries' : (q.routines.map RoutineCode.name ++ ys.flatMap (topEntries rule)).Perm
      (p'.routines.map RoutineCode.name) := by
    rw [hentries,hroutines]
    exact (hperm.flatMap_right _).append_left _
  obtain ⟨hq',added,hadded,hsame⟩ := topLevel_again hnames ys
    (fun y hy => hplaced y (hperm.subset hy)) hq hlisted.2 hscopes he (hentries'.nodup_iff.mpr hnames)
  obtain ⟨hforget',hnames',_⟩ := placed_topLevel ys hq hlisted.2 hq' hscopes.outermost.table.right
  refine ⟨hq',((hscopes.of_forget hforget).symm.of_forget hforget').symm,hnames' ▸ hentries',?_⟩
  intro y hy
  rw [hadded,hroutines] at hy
  rcases List.mem_append.mp hy with hy | hy
  · exact ⟨y,(grows_topLevel language xs hp).routines.subset hy,.refl y⟩
  · exact hsame y hy

end routines

section units

/-- Routines whose keys are free and different are all declared. -/
theorem gives_declareRoutines : ∀ (xs : List StackCompiler.Routine) {p : Progress},
    p.scopes.depth = 0 → (p.declare (xs.map (routineSymbol p.scopes))).scopes.current.Distinct →
    (declareRoutines xs).Gives p () (p.declare (xs.map (routineSymbol p.scopes)))
  | [], p, _, _ => by
    rw [declareRoutines]
    exact gives_pure.mpr ⟨rfl,by simp [Progress.declare]⟩
  | x :: rest, p, hz, hd => by
    have hfree : p.scopes.current.lookup x.name = none := by
      rw [Progress.declare,ScopeStack.current_add] at hd
      exact hd.lookup
    have hdeclare : p.scopes.declareGlobal { x.symbol with entry := some (p.scopes.normalize x.name) } =
        (.ok (routineSymbol p.scopes x),(p.declare [routineSymbol p.scopes x]).scopes) := by
      rw [ScopeStack.declareGlobal_eq_declare hz]
      exact ScopeStack.declare_of_lookup hfree
    have hrest := gives_declareRoutines rest (p := p.declare [routineSymbol p.scopes x])
      (by simpa [Progress.declare] using hz)
    rw [routineSymbol_declare,declare_declare] at hrest
    simp only [declareRoutines,gives_bind,gives_keyOf]
    exact ⟨_,p,⟨rfl,rfl⟩,_,_,gives_attempt.mpr (.inl ⟨_,_,hdeclare,rfl,rfl⟩),hrest hd⟩

/-- Before the code of routines is made, the order of the routines matters only for the order of the
symbols. -/
theorem alike_declareRoutines {p p' q' : Progress} {xs ys : List StackCompiler.Routine} {v w : Unit}
    (hperm : ys.Perm xs) (hz : p.scopes.depth = 0) (hdistinct : p.scopes.current.Distinct)
    (hp : (declareRoutines xs).Gives p v p') (hq : (declareRoutines ys).Gives p w q')
    (he : p'.errors = []) :
    p'.scopes.Alike p.scopes.caseSensitive q'.scopes ∧ q'.errors = [] ∧ q'.nextLabel = p'.nextLabel ∧
      q'.routines = p'.routines := by
  obtain ⟨rfl,hdeclares⟩ := declareRoutines_ok xs hp he hz
  have hsymbols := hperm.map (routineSymbol p.scopes)
  have hd := hdeclares hdistinct
  have hd' : (p.declare (ys.map (routineSymbol p.scopes))).scopes.current.Distinct := by
    simp only [Progress.declare,ScopeStack.current_add] at hd ⊢
    exact ((hsymbols.append_left _).map _).nodup_iff.mpr hd
  cases hq.symm.trans (gives_declareRoutines ys hz hd')
  have hinner : p.scopes.inner = [] := List.length_eq_zero_iff.mp hz
  refine ⟨?_,he,rfl,rfl⟩
  have hcls : ∀ x ∈ xs.map (routineSymbol p.scopes), x.cls ≠ .variable := by
    intro x hx
    obtain ⟨y,_,rfl⟩ := List.mem_map.mp hx
    exact SymbolClass.noConfusion
  rw [Progress.declare,ScopeStack.current_add] at hd
  have hcurrent : p.scopes.current = p.scopes.outermost.table := by
    unfold ScopeStack.current ScopeStack.top
    rw [hinner]
    rfl
  have htable := SymbolTable.alike_perm hsymbols hd hcls
  rw [hcurrent] at htable
  unfold Progress.declare ScopeStack.add ScopeStack.updateTop
  rw [hinner]
  exact ⟨.nil,⟨htable,rfl,rfl⟩,rfl⟩

/-- A unit that is put into code without diagnostics is so with its routines in any other order. -/
theorem run_perm {u : SourceUnit} {rule : Bool} {m : Module} {xs : List StackCompiler.Routine}
    (hperm : xs.Perm u.routines) (hrun : (run u rule).2 = .ok m) :
    ∃ m', (run { u with routines := xs } rule).2 = .ok m' ∧ m'.globals = m.globals ∧
      (m'.routines.map RoutineCode.name).Perm (m.routines.map RoutineCode.name) ∧
      ∀ y ∈ m'.routines, ∃ z ∈ m.routines, z.Renumbered y := by
  obtain ⟨_,_,_,hassembled⟩ := assembled_of_run hrun
  have hnames := hassembled.names
  obtain ⟨_,p,hp,he,rfl⟩ := run_eq_ok hrun
  obtain ⟨q,hq,_,hrun'⟩ := exists_run { u with routines := xs } rule
  rw [hrun']
  change (p.routines.map RoutineCode.name).Nodup at hnames
  simp only [sourceUnit,gives_bind,gives_get,gives_keyOf] at hp hq
  obtain ⟨_,p₁,hall,_,_,hroutines,_,_,⟨rfl,rfl⟩,_,p₂,⟨rfl,rfl⟩,labels,p₃,hlabels,_,p₄,hfinish,
    htop⟩ := hp
  obtain ⟨_,q₁,hall',_,_,hroutines',_,_,⟨rfl,rfl⟩,_,q₂,⟨rfl,rfl⟩,labels',q₃,hlabels',_,q₄,hfinish',
    htop'⟩ := hq
  cases hall.symm.trans hall'
  have he₄ := (grows_topLevel _ _ htop).errors_nil he
  have he₃ := (grows_finish hfinish (stays_mainBody _ u)).errors_nil he₄
  have he₂ := (grows_declareLabels _ hlabels).errors_nil he₃
  have he₁ := (grows_declareRoutines _ hroutines).errors_nil he₂
  obtain ⟨symbols,rfl,hd₁,_⟩ := declareAll_ok _ hall he₁
  obtain ⟨halike,heq₂,hlabel,hsame⟩ := alike_declareRoutines hperm
    (by rw [Progress.declare,ScopeStack.depth_add]; rfl) (hd₁ List.nodup_nil) hroutines hroutines' he₂
  have hlisted : p₂.Listed := (grows_declareRoutines _ hroutines).listed rfl
  have hlisted' : q₂.Listed := (grows_declareRoutines _ hroutines').listed rfl
  have hcase : ((Progress.initial u rule).declare symbols).scopes.caseSensitive = rule :=
    ScopeStack.caseSensitive_add _ _
  rw [hcase] at halike
  have h₂ : p₂.Twin (higher rule 0) [] [] q₂ :=
    ⟨halike,hlabel,by rw [he₂,heq₂],⟨hlisted,hlisted'⟩,p₂.routines,q₂.routines,rfl,rfl,by rw [hsame],fun _ => by
      rw [hsame]
      exact (List.map_id'' (RoutineCode.relabel_eq_self fun _ => rfl) _).symm⟩
  have hspelled : u.respell (higher rule 0).spell = u := u.respell_id
  have h₄ : p₄.Twin (higher rule 0) [] [] q₄ := by
    refine twin_main h₂ hlabels (?_ : (declareLabels _).Gives q₂ labels' q₃) hfinish
      (?_ : (finish _ noLine 0 q₂.errors.length [] _).Gives q₃ () q₄) <;> rw [hspelled]
    · exact hlabels'
    · exact hfinish'
  obtain ⟨hq,hscopes,hperm',hsame'⟩ := topLevel_perm hperm h₄.scopes (h₄.routines_eq rfl he₄)
    h₄.listed htop he hnames htop' (h₄.errors_nil.mpr he₄)
  rw [hq]
  exact ⟨_,rfl,hscopes.outermost.table.globals,hperm',hsame'⟩

end units

end Lowering

/-- Where no two routines have the same name, a routine is found under its name. -/
theorem SourceUnit.routineNamed?_compile {u : SourceUnit} {o : CompileOptions} {m : Module}
    (h : u.compile o = .ok m) {entry : String} {r : RoutineCode} :
    m.routineNamed? entry = some r ↔ r ∈ m.routines ∧ r.name = entry := by
  obtain ⟨hnames,hentries⟩ := SourceUnit.entryPoints_compile h
  unfold Module.routineNamed?
  rw [Option.bind_eq_some_iff,hentries]
  constructor
  · rintro ⟨i,hi,hr⟩
    obtain ⟨r',hr',hname⟩ := (lookup_entryPoints hnames).mp hi
    cases hr.symm.trans hr'
    exact ⟨List.mem_of_getElem? hr,hname⟩
  · rintro ⟨hr,hname⟩
    obtain ⟨i,hi⟩ := List.getElem?_of_mem hr
    exact ⟨i,(lookup_entryPoints hnames).mpr ⟨r,hi,hname⟩,hi⟩

/-- A unit that compiles does so with its routines in any other order: the names of the routines are the
same, and each is one of the first module up to the numbers of labels. -/
theorem SourceUnit.exists_compile_perm {u : SourceUnit} {xs : List Routine} {o : CompileOptions}
    {m : Module} (hperm : xs.Perm u.routines) (h : u.compile o = .ok m) :
    ∃ m', SourceUnit.compile { u with routines := xs } o = .ok m' ∧ m'.globals = m.globals ∧
      (m'.routines.map RoutineCode.name).Perm (m.routines.map RoutineCode.name) ∧
      ∀ r' ∈ m'.routines, ∃ r ∈ m.routines, r.Renumbered r' := by
  obtain ⟨m₀,hrun,rfl⟩ := compile_eq_ok h
  obtain ⟨m₁,hrun',hglobals,hnames,hsame⟩ := Lowering.run_perm hperm hrun
  have hcompile : SourceUnit.compile { u with routines := xs } o = .ok (m₁.optimize o.passes) := by
    unfold compile
    change Except.map _ (Lowering.run _ (o.caseRule u)).2 = _
    rw [hrun']
    rfl
  refine ⟨_,hcompile,hglobals,?_,?_⟩
  · rw [Module.names_optimize,Module.names_optimize]
    exact hnames
  · intro r' hr'
    obtain ⟨y,hy,rfl⟩ := List.mem_map.mp hr'
    obtain ⟨z,hz,hzy⟩ := hsame y hy
    exact ⟨_,List.mem_map_of_mem hz,hzy.optimize o.passes⟩

/-- Modules with the same names have, under each entry name, the same routines. -/
theorem SourceUnit.rel_routineNamed {u v : SourceUnit} {o : CompileOptions} {m m' : Module}
    (h : u.compile o = .ok m) (h' : v.compile o = .ok m')
    (hnames : (m'.routines.map RoutineCode.name).Perm (m.routines.map RoutineCode.name))
    (hsame : ∀ r' ∈ m'.routines, ∃ r ∈ m.routines, r.Renumbered r') (entry : String) :
    Option.Rel RoutineCode.Renumbered (m.routineNamed? entry) (m'.routineNamed? entry) := by
  cases he' : m'.routineNamed? entry with
  | none =>
    cases he : m.routineNamed? entry with
    | none => exact .none
    | some r =>
      obtain ⟨hr,rfl⟩ := (routineNamed?_compile h).mp he
      obtain ⟨r',hr',hname⟩ := List.mem_map.mp (hnames.symm.subset (List.mem_map_of_mem hr))
      cases he'.symm.trans ((routineNamed?_compile h').mpr ⟨hr',hname⟩)
  | some r' =>
    obtain ⟨hr',hname⟩ := (routineNamed?_compile h').mp he'
    obtain ⟨r,hr,hrr'⟩ := hsame r' hr'
    rw [(routineNamed?_compile h).mpr ⟨hr,hrr'.name.symm.trans hname⟩]
    exact .some hrr'

/-- The order of the routines of a unit does not matter: the unit compiles in every order or in none, and
then its variables are the same, and under each entry name it has the same routine, up to the numbers of
labels. -/
theorem SourceUnit.compile_perm {u : SourceUnit} {xs : List Routine} (hperm : xs.Perm u.routines)
    (o : CompileOptions) :
    ((∃ m', SourceUnit.compile { u with routines := xs } o = .ok m') ↔ ∃ m, u.compile o = .ok m) ∧
    ∀ m m', u.compile o = .ok m → SourceUnit.compile { u with routines := xs } o = .ok m' →
      m'.globals = m.globals ∧
      ∀ entry, Option.Rel RoutineCode.Renumbered (m.routineNamed? entry) (m'.routineNamed? entry) := by
  refine ⟨⟨?_,?_⟩,?_⟩
  · rintro ⟨m',h'⟩
    obtain ⟨m,h,_⟩ := exists_compile_perm hperm.symm h'
    exact ⟨m,h⟩
  · rintro ⟨m,h⟩
    obtain ⟨m',h',_⟩ := exists_compile_perm hperm h
    exact ⟨m',h'⟩
  · intro m m' h h'
    obtain ⟨_,h'',hglobals,hnames,hsame⟩ := exists_compile_perm hperm h
    cases h'.symm.trans h''
    exact ⟨hglobals,rel_routineNamed h h' hnames hsame⟩

/-- Two routines with loops that count a variable up and down. -/
def rounds : SourceUnit :=
  { name := "Rounds"
    language := .comal
    globals := [{ name := "n", base := .integer }]
    main := [.call 1 "Up" [],.call 2 "Down" []]
    routines := [
      { name := "Up"
        body := [.whileDo 4 (.binary 4 (.ident 4 "n") .lt (.literal 4 (.integer 9)))
          [.assign 5 { name := "n" } (.binary 5 (.ident 5 "n") .add (.literal 5 (.integer 1)))]]
        line := 3 },
      { name := "Down"
        body := [.repeatUntil 7
          [.assign 8 { name := "n" } (.binary 8 (.ident 8 "n") .sub (.literal 8 (.integer 1)))]
          (.binary 7 (.ident 7 "n") .eq (.literal 7 (.integer 0)))]
        line := 6 }] }

def labelsOf (x : Except (List Diagnostic) Module) : List (String × List Label) :=
  match x with
  | .ok m => m.routines.map fun r => (r.name,r.code.labels)
  | .error _ => []

/-- In the other order the labels of both routines have other numbers. -/
theorem SourceUnit.compile_perm_rounds :
    ∃ m m', rounds.compile {} = .ok m ∧
      SourceUnit.compile { rounds with routines := rounds.routines.reverse } {} = .ok m' ∧
      labelsOf (.ok m) = [("Rounds",[]),("Up",[0,1]),("Down",[2])] ∧
      labelsOf (.ok m') = [("Rounds",[]),("Down",[0]),("Up",[1,2])] ∧
      m'.globals = m.globals ∧
      ∀ entry, Option.Rel RoutineCode.Renumbered (m.routineNamed? entry) (m'.routineNamed? entry) := by
  obtain ⟨hiff,hsame⟩ := compile_perm rounds.routines.reverse_perm {}
  have hlabels : labelsOf (rounds.compile {}) = [("Rounds",[]),("Up",[0,1]),("Down",[2])] := by
    decide +kernel
  have hlabels' : labelsOf (SourceUnit.compile { rounds with routines := rounds.routines.reverse } {}) =
      [("Rounds",[]),("Down",[0]),("Up",[1,2])] := by
    decide +kernel
  cases h : rounds.compile {} with
  | error ds =>
    rw [h] at hlabels
    cases hlabels
  | ok m =>
    obtain ⟨m',h'⟩ := hiff.mpr ⟨m,h⟩
    rw [h] at hlabels
    rw [h'] at hlabels'
    exact ⟨m,m',rfl,h',hlabels,hlabels',hsame m m' h h'⟩

end StackCompiler
