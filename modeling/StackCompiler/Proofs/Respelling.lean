import StackCompiler.Lowering.Unit

/-! Programs under other spellings of their names.
A spelling is put in place of every name: of units, declarations, parameters, routines, labels, shared
names, variables and calls. Nothing else changes: lines, literals and the shape of the program stay. -/
namespace StackCompiler

namespace Expr

mutual

def respell (f : String → String) : Expr → Expr
  | literal line value => literal line value
  | ident line name => ident line (f name)
  | index line name indices => index line (f name) (respellAll f indices)
  | unary line op operand => unary line op (operand.respell f)
  | binary line left op right => binary line (left.respell f) op (right.respell f)
  | call line name args => call line (f name) (respellAll f args)

def respellAll (f : String → String) : List Expr → List Expr
  | [] => []
  | e :: rest => e.respell f :: respellAll f rest

end

variable (f : String → String)

@[simp] theorem length_respellAll (es : List Expr) : (respellAll f es).length = es.length := by
  induction es with
  | nil => rfl
  | cons e rest ih => simp [respellAll,ih]

@[simp] theorem isEmpty_respellAll (es : List Expr) : (respellAll f es).isEmpty = es.isEmpty := by
  cases es <;> rfl

@[simp] theorem line_respell (e : Expr) : (e.respell f).line = e.line := by
  cases e <;> rfl

@[simp] theorem integer?_respell (e : Expr) : (e.respell f).integer? = e.integer? := by
  cases e <;> rfl

@[simp] theorem constant?_respell (e : Expr) : (e.respell f).constant? = e.constant? := by
  cases e with
  | unary line op operand =>
    cases op with
    | neg => cases operand <;> rfl
    | not => rfl
  | _ => rfl

mutual

theorem respell_id : ∀ e : Expr, e.respell id = e
  | literal .. | ident .. => rfl
  | index _ _ args | call _ _ args => by simp only [respell,respellAll_id args,id_eq]
  | unary _ _ x => by simp only [respell,respell_id x]
  | binary _ x _ y => by simp only [respell,respell_id x,respell_id y]

theorem respellAll_id : ∀ es : List Expr, respellAll id es = es
  | [] => rfl
  | e :: rest => by rw [respellAll,respell_id e,respellAll_id rest]

end

end Expr

def Declaration.respell (f : String → String) (d : Declaration) : Declaration :=
  { d with name := f d.name, extents := Expr.respellAll f d.extents }

def Target.respell (f : String → String) (t : Target) : Target :=
  { name := f t.name, indices := Expr.respellAll f t.indices }

namespace Stmt

mutual

def respell (f : String → String) : Stmt → Stmt
  | declare line d => declare line (d.respell f)
  | share line names => share line (names.map f)
  | assign line target value => assign line (target.respell f) (value.respell f)
  | call line name args => call line (f name) (Expr.respellAll f args)
  | ifElse line cond yes no => ifElse line (cond.respell f) (respellAll f yes) (respellAll f no)
  | whileDo line cond body => whileDo line (cond.respell f) (respellAll f body)
  | repeatUntil line body cond => repeatUntil line (respellAll f body) (cond.respell f)
  | forTo line var first last step body =>
    forTo line (f var) (first.respell f) (last.respell f) (step.map (Expr.respell f))
      (respellAll f body)
  | label line name => label line (f name)
  | goto line name => goto line (f name)
  | ret line value => ret line (value.map (Expr.respell f))
  | print line values => print line (Expr.respellAll f values)
  | stop line => stop line

def respellAll (f : String → String) : List Stmt → List Stmt
  | [] => []
  | x :: rest => x.respell f :: respellAll f rest

end

variable (f : String → String)

@[simp] theorem isEmpty_respellAll (xs : List Stmt) : (respellAll f xs).isEmpty = xs.isEmpty := by
  cases xs <;> rfl

mutual

theorem flatten_respell : ∀ x : Stmt, (x.respell f).flatten = x.flatten.map (respell f)
  | ifElse _ _ yes no => by
    simp only [respell,flatten,List.map_cons,List.map_append,flattenAll_respell yes,flattenAll_respell no]
  | whileDo _ _ body | repeatUntil _ body _ | forTo _ _ _ _ _ body => by
    simp only [respell,flatten,List.map_cons,flattenAll_respell body]
  | declare .. | share .. | assign .. | call .. | label .. | goto .. | ret .. | print .. | stop .. => by
    simp only [respell,flatten,List.map_cons,List.map_nil]

/-- The statements inside a program are those inside the program before it was spelled anew. -/
theorem flattenAll_respell : ∀ xs : List Stmt,
    flattenAll (respellAll f xs) = (flattenAll xs).map (respell f)
  | [] => rfl
  | x :: rest => by
    rw [respellAll,flattenAll,flattenAll,List.map_append,flatten_respell x,flattenAll_respell rest]

end

mutual

theorem respell_id : ∀ x : Stmt, x.respell id = x
  | declare _ d => by simp only [respell,Declaration.respell,Expr.respellAll_id,id_eq]
  | share .. => by simp only [respell,List.map_id]
  | assign .. => by simp only [respell,Target.respell,Expr.respellAll_id,Expr.respell_id,id_eq]
  | ifElse _ _ yes no => by
    simp only [respell,Expr.respell_id,respellAll_id yes,respellAll_id no]
  | whileDo _ _ body | repeatUntil _ body _ => by
    simp only [respell,Expr.respell_id,respellAll_id body]
  | forTo _ _ _ _ step body => by
    cases step <;> simp only [respell,Expr.respell_id,respellAll_id body,Option.map_none,
      Option.map_some,id_eq]
  | ret _ value => by
    cases value <;> simp only [respell,Expr.respell_id,Option.map_none,Option.map_some]
  | call .. | print .. => by simp only [respell,Expr.respellAll_id,id_eq]
  | label .. | goto .. | stop .. => rfl

theorem respellAll_id : ∀ xs : List Stmt, respellAll id xs = xs
  | [] => rfl
  | x :: rest => by rw [respellAll,respell_id x,respellAll_id rest]

end

end Stmt

def Param.respell (f : String → String) (p : Param) : Param := { p with name := f p.name }

namespace Routine

mutual

def respell (f : String → String) : Routine → Routine
  | ⟨name,discipline,params,returns,body,nested,line⟩ =>
    ⟨f name,discipline,params.map (Param.respell f),returns,Stmt.respellAll f body,
      respellAll f nested,line⟩

def respellAll (f : String → String) : List Routine → List Routine
  | [] => []
  | x :: rest => x.respell f :: respellAll f rest

end

mutual

theorem respell_id : ∀ x : Routine, x.respell id = x
  | ⟨_,_,params,_,body,nested,_⟩ => by
    have hparams : params.map (Param.respell id) = params := List.map_id params
    rw [respell,hparams,Stmt.respellAll_id body,respellAll_id nested,id_eq]

theorem respellAll_id : ∀ xs : List Routine, respellAll id xs = xs
  | [] => rfl
  | x :: rest => by rw [respellAll,respell_id x,respellAll_id rest]

end

@[simp] theorem name_respell (f : String → String) (x : Routine) : (x.respell f).name = f x.name := by
  cases x
  rfl

/-- The routine is declared with the same parameters and result, under another spelling. -/
theorem symbol_respell (f : String → String) (x : Routine) :
    (x.respell f).symbol = { x.symbol with name := f x.name, key := f x.name } := by
  obtain ⟨_,_,params,_,_,_,_⟩ := x
  have htypes : (params.map (Param.respell f)).map Param.type = params.map Param.type := by
    rw [List.map_map]
    rfl
  rw [respell,symbol,htypes]
  rfl

end Routine

def SourceUnit.respell (f : String → String) (u : SourceUnit) : SourceUnit :=
  { name := f u.name
    language := u.language
    globals := u.globals.map (Declaration.respell f)
    main := Stmt.respellAll f u.main
    routines := Routine.respellAll f u.routines }

theorem SourceUnit.respell_id (u : SourceUnit) : u.respell id = u := by
  have hglobals : u.globals.map (Declaration.respell id) = u.globals :=
    List.map_id'' (fun d => by rw [Declaration.respell,Expr.respellAll_id,id_eq]) _
  rw [respell,hglobals,Stmt.respellAll_id,Routine.respellAll_id,id_eq]

theorem Lowering.mainDeclarations_respell (f : String → String) (main : List Stmt) :
    mainDeclarations (Stmt.respellAll f main) = (mainDeclarations main).map (Declaration.respell f) := by
  unfold mainDeclarations
  rw [Stmt.flattenAll_respell,List.filterMap_map,List.map_filterMap]
  congr 1
  funext x
  cases x <;> rfl

end StackCompiler
