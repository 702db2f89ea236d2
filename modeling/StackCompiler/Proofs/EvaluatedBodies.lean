import StackCompiler.Proofs.Bodies
import StackCompiler.Proofs.StatementRuns

/-! Stretches of statements and their code.
The code of each routine comes from its body in the scopes that the source gives it, and every stretch
of the body has its code among that of the routine. -/
namespace StackCompiler

namespace Evaluation

/-- The lists of statements directly inside a statement, with the scopes before them. -/
def parts (r : Setting) (scopes : ScopeStack) : Stmt → List (ScopeStack × List Stmt)
  | .ifElse _ _ yes no => [(scopes,yes),(afterAll r scopes yes,no)]
  | .whileDo _ _ body | .repeatUntil _ body _ | .forTo _ _ _ _ _ body => [(scopes,body)]
  | _ => []

/-- A stretch of a list of statements, or of a list inside one of them, and the scopes before it. -/
inductive Within (r : Setting) : ScopeStack → List Stmt → ScopeStack → List Stmt → Prop
  | here (scopes : ScopeStack) (xs more : List Stmt) : Within r scopes (xs ++ more) scopes xs
  | later {scopes scopes' : ScopeStack} {x : Stmt} {rest xs : List Stmt}
    (h : Within r (after r scopes x) rest scopes' xs) : Within r scopes (x :: rest) scopes' xs
  | inside {scopes scopes' inner : ScopeStack} {x : Stmt} {rest xs part : List Stmt}
    (hpart : (inner,part) ∈ parts r scopes x) (h : Within r inner part scopes' xs) :
    Within r scopes (x :: rest) scopes' xs

end Evaluation

namespace Lowering

open Lower Evaluation

/-- At the position stands what the statements were put into in the given scopes. -/
inductive Emitted (setting : Setting) (rc : RoutineCode) (env : ScopeStack) (xs : List Stmt) :
    Nat → Code → Prop
  | intro {r : Routine} {s s' : State} {pc : Nat} {part : Code} (hsetting : r.setting = setting)
    (hresult : r.resultName = none) (hscopes : s.Agrees env)
    (hcode : (stmts r xs).Gives s part s') (herrors : s'.errors = s.errors)
    (hframe : s'.frame.Grows rc.frame) (hat : rc.code.Has pc part) :
    Emitted setting rc env xs pc part

section emitted

variable {r : Routine} {env inner : ScopeStack} {s s' : State} {code : Code} {x : Stmt}
  {xs ys : List Stmt}

/-- The code of a statement holds that of the statements inside it. -/
theorem exists_part (h : (stmt r x).Gives s code s')
    (herr : s'.errors = s.errors) (he : s.Agrees env) (hpart : (inner,xs) ∈ parts r.setting env x) :
    ∃ part t t', part <:+: code ∧ (stmts r xs).Gives t part t' ∧ t.Agrees inner ∧
      t'.errors = t.errors ∧ t'.frame.Grows s'.frame := by
  cases x with
  | ifElse line cond yes no =>
    obtain ⟨test,t,yesCode,u,noCode,htest,hyes,hno,rfl⟩ := gives_ifElse.mp h
    obtain ⟨hyesErr,hnoErr⟩ := errors_of_branches htest hyes hno herr
    have hs := changes_of_gives hno (stays_stmts r no u)
    have het := agrees_condition htest he
    have heu := agrees_stmts yes hyes hyesErr het
    simp only [parts,List.mem_cons,Prod.mk.injEq,List.not_mem_nil,or_false] at hpart
    rcases hpart with ⟨rfl,rfl⟩ | ⟨rfl,rfl⟩
    · refine ⟨yesCode,_,u,?_,hyes,het,hyesErr,hs.frame⟩
      rw [List.append_assoc (test ++ _ ++ yesCode)]
      exact List.infix_append _ _ _
    · cases xs with
      | nil =>
        rw [stmts] at hno
        refine ⟨[],u,u,List.nil_infix,?_,heu,rfl,hs.frame⟩
        rw [stmts]
        exact gives_pure.mpr ⟨rfl,rfl⟩
      | cons y rest =>
        refine ⟨noCode,u,s',?_,hno,heu,hnoErr,.refl _⟩
        refine List.IsInfix.trans ?_ (List.prefix_append _ _).isInfix
        exact (List.suffix_append _ noCode).isInfix.trans (List.suffix_append _ _).isInfix
  | whileDo line cond body =>
    obtain ⟨bodyCode,t,test,hbody,htest,rfl⟩ := gives_whileDo.mp h
    have hbodyErr := errors_of_body hbody htest herr
    have hs := changes_of_gives htest stays_condition
    cases List.mem_singleton.mp hpart
    refine ⟨bodyCode,_,t,?_,hbody,he,hbodyErr,hs.frame⟩
    simp only [List.append_assoc]
    exact List.infix_append' _ _ _
  | repeatUntil line body cond =>
    obtain ⟨bodyCode,t,test,hbody,htest,rfl⟩ := gives_repeatUntil.mp h
    have hbodyErr := errors_of_body hbody htest herr
    have hs := changes_of_gives htest stays_condition
    cases List.mem_singleton.mp hpart
    refine ⟨bodyCode,_,t,?_,hbody,he,hbodyErr,hs.frame⟩
    simp only [List.append_assoc]
    exact List.infix_append' _ _ _
  | forTo line var first last step body =>
    obtain ⟨head,t,bodyCode,hhead,hbody,rfl⟩ := gives_forTo.mp h
    have hbodyErr := errors_of_forTo hhead hbody herr
    have het := agrees_forHead hhead he
    cases List.mem_singleton.mp hpart
    refine ⟨bodyCode,_,s',?_,hbody,het,hbodyErr,.refl _⟩
    rw [ForHead.loop]
    iterate 6 refine List.IsInfix.trans ?_ (List.prefix_append _ _).isInfix
    exact (List.suffix_append _ bodyCode).isInfix
  | declare | share | assign | call | label | goto | ret | print | stop => cases hpart

theorem stmts_append (h : (stmts r (xs ++ ys)).Gives s code s') :
    ∃ first t more, (stmts r xs).Gives s first t ∧ (stmts r ys).Gives t more s' ∧
      code = first ++ more := by
  induction xs generalizing s code with
  | nil =>
    refine ⟨[],s,code,?_,h,rfl⟩
    rw [stmts]
    exact gives_pure.mpr ⟨rfl,rfl⟩
  | cons x rest ih =>
    obtain ⟨first,t,more,hx,hrest,rfl⟩ := gives_stmts_cons.mp h
    obtain ⟨second,u,last,hsecond,hlast,rfl⟩ := ih hrest
    refine ⟨first ++ second,u,last,?_,hlast,(List.append_assoc _ _ _).symm⟩
    exact gives_stmts_cons.mpr ⟨first,t,second,hx,hsecond,rfl⟩

/-- Every stretch of emitted statements has its code among theirs. -/
theorem Emitted.within {setting : Setting} {rc : RoutineCode} {pc : Nat} {part : Code}
    (h : Emitted setting rc env xs pc part) (hw : Within setting env xs inner ys) :
    ∃ pc' part', Emitted setting rc inner ys pc' part' := by
  induction hw generalizing pc part with
  | here scopes xs more =>
    cases h with
    | @intro r s s' pc part hsetting hresult hscopes hcode herrors hframe hat =>
      obtain ⟨first,t,rest,hfirst,hrest,rfl⟩ := stmts_append hcode
      have ht := changes_of_gives hfirst (stays_stmts r xs s)
      have hs := changes_of_gives hrest (stays_stmts r more t)
      obtain ⟨herr,_⟩ := State.errors_eq ht.errors hs.errors herrors
      exact ⟨pc,first,.intro hsetting hresult hscopes hfirst herr (hs.frame.trans hframe)
        (Code.has_append.mp hat).1⟩
  | @later scopes scopes' x rest xs _ ih =>
    cases h with
    | @intro r s s' pc part hsetting hresult hscopes hcode herrors hframe hat =>
      obtain ⟨first,t,more,hx,hxErr,hrest,hrestErr,rfl⟩ := stmts_cons_ok hcode herrors
      have het := agrees_stmt x hx hxErr hscopes
      rw [hsetting] at het
      exact ih (.intro hsetting hresult het hrest hrestErr hframe (Code.has_append.mp hat).2)
  | @inside scopes scopes' inner x rest xs part' hpart _ ih =>
    cases h with
    | @intro r s s' pc part hsetting hresult hscopes hcode herrors hframe hat =>
      obtain ⟨first,t,more,hx,hxErr,hrest,_,rfl⟩ := stmts_cons_ok hcode herrors
      have hs := changes_of_gives hrest (stays_stmts r rest t)
      rw [← hsetting] at hpart
      obtain ⟨code,u,u',hpiece,hcode',hu,herr,hgrows⟩ := exists_part hx hxErr hscopes hpart
      obtain ⟨before,behind,rfl⟩ := hpiece
      have hhas := (Code.has_append.mp hat).1
      rw [List.append_assoc,Code.has_append,Code.has_append] at hhas
      exact ih (.intro hsetting hresult hu hcode' herr (hgrows.trans (hs.frame.trans hframe)) hhas.2.1)

end emitted

section renders

variable {u : SourceUnit} {caseSensitive : Bool} {language : Language} {final : List RoutineCode}
  {ground : ScopeStack} {tops : List StackCompiler.Routine} {body : Body} {rc : RoutineCode}

end renders

end Lowering
end StackCompiler
