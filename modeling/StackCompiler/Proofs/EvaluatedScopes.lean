import StackCompiler.Proofs.Evaluation
import StackCompiler.Proofs.LoweringCases
import StackCompiler.Proofs.LoweringChanges

/-! Scopes in evaluation and in code.
Evaluation and code agree on what names mean before and behind every statement, since their scopes
differ at most in the lines of last references, and therefore on the types and on the coercions. -/
namespace StackCompiler.Lowering

open Lower Evaluation

abbrev Routine.setting (r : Routine) : Setting := ⟨r.language,r.depth,r.returns⟩

/-- Evaluation in the scopes knows what the state knows, lines apart. -/
def State.Agrees (s : State) (env : ScopeStack) : Prop := env.forget = s.scopes.forget

section notions

theorem makesArray_iff (d : Declaration) : MakesArray d ↔ needsRoom d = true := by
  simp [MakesArray,needsRoom]

theorem printer?_eq (t : Ty) : Evaluation.printer? t = printer? t := by
  obtain ⟨base,dimensions⟩ := t
  cases dimensions <;> cases base <;> rfl

theorem negative?_integer (n : Int64) : negative? (.integer n) =
    if n = Int64.minValue then none else some (.integer (-n)) := by
  have hmin : -n.toInt ≤ Int64.maxValue.toInt ↔ ¬ n = Int64.minValue := by
    have hle := n.minValue_le_toInt
    rw [← Int64.toInt_inj]
    change -n.toInt ≤ 9223372036854775807 ↔ ¬ n.toInt = -9223372036854775808
    change -9223372036854775808 ≤ n.toInt at hle
    omega
  have hneg : Int64.ofInt (-n.toInt) = -n := by
    rw [Int64.ofInt_neg,Int64.ofInt_toInt]
  rw [negative?,hneg]
  split <;> split <;> first | rfl | tauto

/-- A step is written down exactly if its value is known to the code. -/
theorem numeral?_eq (e : Expr) : numeral? e = e.constant? := by
  unfold numeral? Expr.constant?
  split
  · rfl
  · next l =>
    cases l with
    | integer n => exact negative?_integer n
    | double | char | boolean => rfl
  · split <;> simp_all

theorem nearest_eq (n : Int64) : nearest n.toInt = Literal.toDouble n := by
  have hle : 0 ≤ n ↔ ¬ n.toInt < 0 := Int64.le_iff_toInt_le.trans Int.not_lt.symm
  unfold nearest Literal.toDouble
  by_cases hn : n.toInt < 0
  · rw [if_pos hn,if_neg (fun h => hle.mp h hn),show n.toInt.natAbs = (-n.toInt).toNat by omega]
  · rw [if_neg hn,if_pos (hle.mpr hn),show n.toInt.natAbs = n.toInt.toNat by omega]

theorem counted_eq (base : BaseType) (l : Literal) :
    counted base l = if base = .double then l.promote else l := by
  cases l with
  | integer n =>
    rw [counted,nearest_eq]
    rfl
  | double | char | boolean => simp [counted,Literal.promote]

/-- The code counts a written step upwards or downwards as its sign says. -/
theorem upwards_eq (l : Literal) : upwards l = Step.ascends l := by
  cases l with
  | integer n =>
    rw [upwards,Step.ascends,decide_eq_decide,Int64.le_iff_toInt_le]
    rfl
  | double | char | boolean => rfl

theorem zero_of_isNumeric {base : BaseType} (h : base.isNumeric = true) :
    (Literal.zero base).getD (.integer 0) = zeroOf base := by
  cases base <;> first | rfl | cases h

end notions

section types

variable {r : Routine} {env : ScopeStack} {s s' : State} {line : Line} {name : String}

theorem State.Agrees.touch (he : s.Agrees env) (found : Symbol × Nat) (line : Line) :
    (s.touch found line).Agrees env :=
  he.trans (ScopeStack.forget_touch s.scopes found line).symm

theorem callee?_of_case {p : CallTarget × Symbol} (h : CalleeCase r name line s p s')
    (he : s.Agrees env) :
    s'.Agrees env ∧ ∃ line', callee? r.setting env name line = some (p.1,{ p.2 with line := line' }) := by
  cases h with
  | @routine symbol depth hr hf =>
    obtain ⟨line',hr'⟩ := ScopeStack.resolveRoutine_of_forget he hr
    refine ⟨he.touch _ _,line',?_⟩
    rw [callee?,hr']
    exact if_pos hf
  | @intrinsic i hr hi =>
    have hr' := ScopeStack.resolveRoutine_none_of_forget he hr
    refine ⟨he,line,?_⟩
    rw [callee?,hr',hi]
    rfl

/-- A name that is visible is itself what a call of it reaches. -/
theorem callee?_of_resolve {symbol : Symbol} {depth : Nat} {c : CallTarget × Symbol}
    (hr : env.resolve name = some (symbol,depth)) (hc : callee? r.setting env name line = some c) :
    c.2 = symbol := by
  rw [callee?,ScopeStack.resolveRoutine,hr] at hc
  simp only at hc
  split at hc
  · cases hc
    rfl
  · cases hc

theorem arguments_line (x : Symbol) (line' : Line) : ∀ (i : Nat) (params args : List Ty),
    Typing.arguments { x with line := line' } line i params args =
      Typing.arguments x line i params args
  | _, [], _ => by simp [Typing.arguments]
  | _, _ :: _, [] => by simp [Typing.arguments]
  | i, param :: params, arg :: args => by
    rw [Typing.arguments,Typing.arguments,arguments_line x line' (i + 1) params args]

theorem call_line (x : Symbol) (line' : Line) (args : List Ty) :
    Typing.call { x with line := line' } args line = Typing.call x args line := by
  unfold Typing.call
  rw [arguments_line]
  rfl

/-- A call that is put into code is checked in the same way when it is evaluated. -/
theorem checkedCall?_of_case {args : Lower (List Value)} {p : Code × Option Ty} {target : CallTarget}
    {signature : Symbol} {t : State} {values : List Value} {cs : List Coercion} {es : List Expr}
    (h : CallCase r name line args s p s' target signature t values cs)
    (he : s.Agrees env)
    (hes : es.mapM (typeOf r.setting env) = some (values.map Value.type)) :
    checkedCall? r.setting env name line es = some ⟨target,cs,!signature.type.isVoid⟩ := by
  obtain ⟨_,line',hc⟩ := callee?_of_case h.callee he
  rw [checkedCall?,hc,hes]
  simp only [bind,Option.bind,call_line,h.typing]
  rfl

theorem typeOf_callee {args : Lower (List Value)} {v : Value}
    (h : (callValue r name line args).Gives s v s') (he : s.Agrees env) :
    (callee? r.setting env name line).map (fun c => c.2.type) = some v.type := by
  obtain ⟨target,signature,t,values,cs,_,ht,hcall⟩ := callValue_cases h
  obtain ⟨_,line',hc⟩ := callee?_of_case hcall.callee he
  rw [hc,ht]
  rfl

theorem type_of_callValue {args : Lower (List Value)} {v : Value} {symbol : Symbol} {depth : Nat}
    (h : (callValue r name line args).Gives s v s') (he : s.Agrees env)
    (hr : env.resolve name = some (symbol,depth)) : symbol.type = v.type := by
  obtain ⟨c,hc,htype⟩ := Option.map_eq_some_iff.mp (typeOf_callee h he)
  rw [← htype,callee?_of_resolve hr hc]

theorem agrees_callValue {args : Lower (List Value)} {v : Value}
    (h : (callValue r name line args).Gives s v s') (he : s.Agrees env)
    (hargs : ∀ {t values}, args.Gives t values s' → t.Agrees env →
      s'.Agrees env) : s'.Agrees env := by
  obtain ⟨target,signature,t,values,cs,_,ht,hcall⟩ := callValue_cases h
  exact hargs hcall.args (callee?_of_case hcall.callee he).1

theorem State.Agrees.place (he : s.Agrees env) {found : Symbol × Nat} {p : Place}
    (h : (place r found line).Gives s p s') : s'.Agrees env := by
  rcases gives_place.mp h with ⟨_,_,rfl⟩ | ⟨_,_,_,rfl⟩ <;> exact he

theorem known_ident {v : Value} (h : (ident r name line).Gives s v s')
    (he : s.Agrees env) :
    s'.Agrees env ∧ typeOf r.setting env (.ident line name) = some v.type := by
  have hnil : ∀ {t : State} {values : List Value}, (pure [] : Lower (List Value)).Gives t values s' →
      t.Agrees env → s'.Agrees env := by
    intro t values hargs ht
    rw [(gives_pure.mp hargs).2]
    exact ht
  rw [typeOf]
  cases ident_cases h with
  | intrinsic hi hcall =>
    rw [ScopeStack.resolve_none_of_forget he hi.1]
    exact ⟨agrees_callValue hcall he hnil,typeOf_callee hcall he⟩
  | constant _ hres =>
    obtain ⟨_,hres'⟩ := ScopeStack.resolve_of_forget he hres
    rw [hres']
    exact ⟨he.touch _ _,rfl⟩
  | stored _ hres _ hp =>
    obtain ⟨_,hres'⟩ := ScopeStack.resolve_of_forget he hres
    rw [hres']
    exact ⟨(he.touch _ _).place hp,rfl⟩
  | result _ hres =>
    obtain ⟨_,hres'⟩ := ScopeStack.resolve_of_forget he hres
    rw [hres']
    exact ⟨he.touch _ _,rfl⟩
  | call _ hres _ _ hcall =>
    obtain ⟨_,hres'⟩ := ScopeStack.resolve_of_forget he hres
    refine ⟨agrees_callValue hcall (he.touch _ _) hnil,?_⟩
    rw [hres']
    exact congrArg some (type_of_callValue hcall (he.touch _ _) hres')

mutual

/-- Expressions leave the scopes alone, apart from lines, and have the type of their code. -/
theorem known_expr : ∀ (e : Expr) {s : State} {v : Value} {s' : State},
    (expr r e).Gives s v s' → s.Agrees env →
    s'.Agrees env ∧ typeOf r.setting env e = some v.type
  | .literal _ l, _, _, _, h, he => by
    rw [expr] at h
    obtain ⟨rfl,rfl⟩ := gives_pure.mp h
    exact ⟨he,rfl⟩
  | .ident _ _, _, _, _, h, he => by
    rw [expr] at h
    exact known_ident h he
  | .index line name indices, s, v, s', h, he => by
    have hargs : ∀ {t : State} {values : List Value}, (exprs r indices).Gives t values s' →
        t.Agrees env → s'.Agrees env :=
      fun hargs ht => (known_exprs indices hargs ht).1
    rw [typeOf]
    cases index_cases h with
    | intrinsic hi hcall =>
      rw [ScopeStack.resolve_none_of_forget he hi.1]
      exact ⟨agrees_callValue hcall he hargs,typeOf_callee hcall he⟩
    | call _ hres hc hcall =>
      obtain ⟨_,hres'⟩ := ScopeStack.resolve_of_forget he hres
      refine ⟨agrees_callValue hcall (he.touch _ _) hargs,?_⟩
      rw [hres']
      exact congrArg some ((if_pos hc).trans (type_of_callValue hcall (he.touch _ _) hres'))
    | @element found _ _ t _ _ hres hc hp hsub =>
      obtain ⟨_,hres'⟩ := ScopeStack.resolve_of_forget he hres
      have ht : t.Agrees env := (he.touch found line).place (gives_arrayPlace.mp hp).2.2.2
      refine ⟨known_subscripts indices hsub ht,?_⟩
      rw [hres']
      exact congrArg some (if_neg (ne_true_of_eq_false hc))
  | .unary line op operand, _, _, _, h, he => by
    obtain ⟨x,base,hx,ht,rfl⟩ := gives_unary.mp h
    obtain ⟨hs,htype⟩ := known_expr operand hx he
    rw [typeOf,htype]
    simp only [bind,Option.bind,ht]
    exact ⟨hs,rfl⟩
  | .binary line left op right, _, _, _, h, he => by
    obtain ⟨x,t,y,typing,hx,hy,ht,rfl⟩ := gives_binary.mp h
    obtain ⟨hs,htype⟩ := known_expr left hx he
    obtain ⟨hs',htype'⟩ := known_expr right hy hs
    rw [typeOf,htype,htype']
    simp only [bind,Option.bind,ht]
    exact ⟨hs',rfl⟩
  | .call line name args, _, _, _, h, he => by
    rw [expr] at h
    exact ⟨agrees_callValue h he fun hargs ht => (known_exprs args hargs ht).1,typeOf_callee h he⟩

theorem known_exprs : ∀ (es : List Expr) {s : State}
    {values : List Value} {s' : State}, (exprs r es).Gives s values s' →
    s.Agrees env →
    s'.Agrees env ∧ es.mapM (typeOf r.setting env) = some (values.map Value.type)
  | [], _, _, _, h, he => by
    rw [exprs] at h
    obtain ⟨rfl,rfl⟩ := gives_pure.mp h
    exact ⟨he,rfl⟩
  | e :: rest, _, _, _, h, he => by
    obtain ⟨x,t,xs,hx,hxs,rfl⟩ := gives_exprs_cons.mp h
    obtain ⟨hs,htype⟩ := known_expr e hx he
    obtain ⟨hs',htypes⟩ := known_exprs rest hxs hs
    rw [List.mapM_cons,htype,htypes]
    exact ⟨hs',rfl⟩

theorem known_subscripts : ∀ (indices : List Expr) {name : String}
    {array : Place} {line : Line} {dim : Nat} {extents : List Extent} {s : State} {code : Code}
    {s' : State},
    (subscripts r name array line dim extents indices).Gives s code s' →
    s.Agrees env → s'.Agrees env
  | [], _, _, _, _, _, _, _, _, h, he => by
    rw [subscripts] at h
    rw [(gives_pure.mp h).2]
    exact he
  | _ :: _, _, _, _, _, [], _, _, _, h, he => by
    rw [subscripts] at h
    rw [(gives_pure.mp h).2]
    exact he
  | index :: rest, _, _, _, _, _ :: _, _, _, _, h, he => by
    obtain ⟨x,t,more,hx,_,_,hmore,_⟩ := gives_subscripts_cons.mp h
    exact known_subscripts rest hmore (known_expr index hx he).1

end

end types

section scopes

variable {r : Routine} {env : ScopeStack} {s s' t : State} {line : Line} {name : String} {code : Code}

theorem stmts_cons_ok {x : Stmt} {rest : List Stmt} (h : (stmts r (x :: rest)).Gives s code s')
    (herr : s'.errors = s.errors) :
    ∃ first t more, (stmt r x).Gives s first t ∧ t.errors = s.errors ∧
      (stmts r rest).Gives t more s' ∧ s'.errors = t.errors ∧ code = first ++ more := by
  obtain ⟨first,t,more,hx,hrest,rfl⟩ := gives_stmts_cons.mp h
  have ht := changes_of_gives hx (stays_recover (stays_stmt r x s))
  have hs := changes_of_gives hrest (stays_stmts r rest t)
  obtain ⟨herr₁,herr₂⟩ := State.errors_eq ht.errors hs.errors herr
  exact ⟨first,t,more,gives_of_recover hx (stays_stmt r x s) herr₁,herr₁,hrest,herr₂,rfl⟩

theorem declare_of_agrees {d : Declaration} {symbol : Symbol} {scopes : ScopeStack}
    (he : s.Agrees env) (h : declare d s.scopes = (.ok symbol,scopes)) :
    ∃ env', declare d env = (.ok symbol,env') ∧ State.Agrees { s with scopes } env' := by
  unfold declare at h ⊢
  cases hd : declared d with
  | error e =>
    rw [hd] at h
    cases h
  | ok new =>
    rw [hd] at h
    exact ScopeStack.declare_of_forget he h

theorem agrees_extents {d : Declaration} : ∀ (dimensions : List Extent)
    {sizes : List Expr} {s : State} {code : Code} {s' : State},
    (extents r d dimensions sizes).Gives s code s' → s.Agrees env → s'.Agrees env
  | [], _, _, _, _, h, he => by
    rw [extents] at h
    rw [(gives_pure.mp h).2]
    exact he
  | .fixed n :: rest, _, _, _, _, h, he => by
    obtain ⟨_,hmore,_⟩ := gives_extents_fixed.mp h
    exact agrees_extents rest hmore he
  | .dynamic :: rest, [], _, _, _, h, _ => by
    rw [extents] at h
    exact absurd h gives_fail
  | .dynamic :: rest, size :: sizes, _, _, _, h, he => by
    obtain ⟨x,t,more,hx,_,hmore,_⟩ := gives_extents_dynamic.mp h
    exact agrees_extents rest hmore (known_expr size hx he).1

theorem agrees_allocate {d : Declaration} {array : Place}
    (h : (allocate r d array).Gives s code s') (he : s.Agrees env) : s'.Agrees env := by
  obtain ⟨_,hsizes,_⟩ := gives_allocate.mp h
  exact agrees_extents d.dimensions hsizes he

theorem agrees_allocateGlobal {d : Declaration} (h : (allocateGlobal r d).Gives s code s')
    (he : s.Agrees env) : s'.Agrees env := by
  rcases gives_allocateGlobal.mp h with ⟨_,h⟩ | ⟨_,_,rfl⟩
  · exact agrees_allocate h he
  · exact he

theorem agrees_declaration {d : Declaration}
    (h : (declaration r d).Gives s code s') (he : s.Agrees env) :
    s'.Agrees (after r.setting env (.declare line d)) := by
  rw [after]
  cases declaration_cases h with
  | global hz h =>
    rw [if_pos hz]
    exact agrees_allocateGlobal h he
  | plain hz hd =>
    obtain ⟨env',hd',he'⟩ := declare_of_agrees he hd
    rw [if_neg hz,hd']
    exact he'
  | array hz hd _ h =>
    obtain ⟨env',hd',he'⟩ := declare_of_agrees he hd
    rw [if_neg hz,hd']
    exact agrees_allocate h he'

theorem agrees_shareAll : ∀ (names : List String) {env : ScopeStack} {s : State} {code : Code}
    {s' : State}, (shareAll line names).Gives s code s' → s.Agrees env →
    code = [] ∧ s'.Agrees (after r.setting env (.share line names))
  | [], env, _, _, _, h, he => by
    rw [shareAll] at h
    obtain ⟨rfl,rfl⟩ := gives_pure.mp h
    rw [after]
    exact ⟨rfl,he⟩
  | name :: rest, env, _, _, _, h, he => by
    obtain ⟨symbol,scopes,hshare,hrest⟩ := gives_shareAll_cons.mp h
    obtain ⟨symbol',env',hshare',he'⟩ := ScopeStack.share_of_forget he hshare
    have hafter := agrees_shareAll rest hrest he'
    rw [after] at hafter ⊢
    rw [List.foldl_cons,hshare']
    exact hafter

theorem agrees_assign {target : Target} {value : Expr}
    (h : (assign r target value line).Gives s code s') (he : s.Agrees env) : s'.Agrees env := by
  cases assign_cases h with
  | result _ _ _ _ hx => exact (known_expr value hx (he.touch _ _)).1
  | stored _ _ _ hp hx => exact (known_expr value hx ((he.touch _ _).place hp)).1
  | element _ _ _ hp hs hx =>
    have ht := (he.touch _ _).place (gives_arrayPlace.mp hp).2.2.2
    exact (known_expr value hx (known_subscripts _ hs ht)).1

theorem agrees_call {args : List Expr} {p : Code × Option Ty}
    (h : (call r name line (exprs r args)).Gives s p s') (he : s.Agrees env) : s'.Agrees env := by
  obtain ⟨_,_,t,_,_,hcall⟩ := call_cases h
  exact (known_exprs args hcall.args (callee?_of_case hcall.callee he).1).1

theorem agrees_condition {cond : Expr}
    (h : (condition r cond).Gives s code s') (he : s.Agrees env) : s'.Agrees env := by
  obtain ⟨_,hx,_⟩ := gives_condition.mp h
  exact (known_expr cond hx he).1

theorem agrees_ret {value : Option Expr}
    (h : (ret r value line).Gives s code s') (he : s.Agrees env) : s'.Agrees env := by
  cases ret_cases h with
  | nothing | result => exact he
  | value _ hx => exact (known_expr _ hx he).1

theorem agrees_printAll : ∀ (values : List Expr) {s : State}
    {code : Code} {s' : State}, (printAll r line values).Gives s code s' → s.Agrees env →
    s'.Agrees env
  | [], _, _, _, h, he => by
    rw [printAll] at h
    rw [(gives_pure.mp h).2]
    exact he
  | e :: rest, _, _, _, h, he => by
    obtain ⟨_,_,_,_,hx,_,hmore,_⟩ := gives_printAll_cons.mp h
    exact agrees_printAll rest hmore (known_expr e hx he).1

theorem agrees_step {type : Ty} {step : Option Expr} {p : Code × Step}
    (h : StepCase r type s step p s') (he : s.Agrees env) : s'.Agrees env := by
  cases h with
  | one => exact he
  | constant => exact he
  | dynamic _ hx => exact (known_expr _ hx he).1

theorem agrees_forHead {first last : Expr} {step : Option Expr}
    {head : ForHead} (h : (forHead r name first last step line).Gives s head s')
    (he : s.Agrees env) : s'.Agrees env := by
  obtain ⟨found,x,y,cx,cy,stepCode,t,u,v,hc⟩ := forHead_cases h
  have ht := (he.touch found line).place hc.counter
  have hu := (known_expr first hc.firstValue ht).1
  have hv := (known_expr last hc.lastValue hu).1
  exact agrees_step hc.stepValue hv

mutual

/-- Evaluation and code agree on the scopes behind a statement. -/
theorem agrees_stmt : ∀ (x : Stmt) {env : ScopeStack} {s : State}
    {code : Code} {s' : State}, (stmt r x).Gives s code s' → s'.errors = s.errors → s.Agrees env →
    s'.Agrees (after r.setting env x)
  | .declare line d, _, _, _, _, h, _, he => by
    rw [stmt] at h
    exact agrees_declaration h he
  | .share line names, _, _, _, _, h, _, he => by
    rw [stmt] at h
    exact (agrees_shareAll names h he).2
  | .assign line target value, _, _, _, _, h, _, he => by
    rw [stmt] at h
    exact agrees_assign h he
  | .call line name args, _, _, _, _, h, _, he => by
    rw [stmt] at h
    obtain ⟨_,hcall,_⟩ := gives_callStmt.mp h
    exact agrees_call hcall he
  | .ifElse line cond yes no, _, _, _, _, h, herr, he => by
    obtain ⟨_,t,_,u,_,htest,hyes,hno,_⟩ := gives_ifElse.mp h
    obtain ⟨hyesErr,hnoErr⟩ := errors_of_branches htest hyes hno herr
    have het := agrees_condition htest he
    rw [after]
    exact agrees_stmts no hno hnoErr (agrees_stmts yes hyes hyesErr het)
  | .whileDo line cond body, _, s, _, _, h, herr, he => by
    obtain ⟨_,t,_,hbody,htest,_⟩ := gives_whileDo.mp h
    have hbodyErr := errors_of_body hbody htest herr
    rw [after]
    exact agrees_condition htest (agrees_stmts body hbody hbodyErr he)
  | .repeatUntil line body cond, _, _, _, _, h, herr, he => by
    obtain ⟨_,t,_,hbody,htest,_⟩ := gives_repeatUntil.mp h
    have hbodyErr := errors_of_body hbody htest herr
    rw [after]
    exact agrees_condition htest (agrees_stmts body hbody hbodyErr he)
  | .forTo line var first last step body, _, _, _, _, h, herr, he => by
    obtain ⟨head,t,_,hhead,hbody,_⟩ := gives_forTo.mp h
    have hbodyErr := errors_of_forTo hhead hbody herr
    have het := agrees_forHead hhead he
    rw [after]
    exact agrees_stmts body hbody hbodyErr het
  | .label line name, _, _, _, _, h, _, he => by
    rw [stmt,gives_bind] at h
    obtain ⟨_,_,hl,h⟩ := h
    obtain ⟨found,_,_,_,rfl⟩ := gives_labelOf.mp hl
    rw [(gives_pure.mp h).2]
    exact he.touch found line
  | .goto line name, _, _, _, _, h, _, he => by
    rw [stmt,gives_bind] at h
    obtain ⟨_,_,hl,h⟩ := h
    obtain ⟨found,_,_,_,rfl⟩ := gives_labelOf.mp hl
    rw [(gives_pure.mp h).2]
    exact he.touch found line
  | .ret line value, _, _, _, _, h, _, he => by
    rw [stmt] at h
    exact agrees_ret h he
  | .print line values, _, _, _, _, h, _, he => by
    rw [stmt] at h
    exact agrees_printAll values h he
  | .stop line, _, _, _, _, h, _, he => by
    rw [stmt] at h
    rw [(gives_pure.mp h).2]
    exact he

theorem agrees_stmts : ∀ (xs : List Stmt) {env : ScopeStack} {s : State}
    {code : Code} {s' : State}, (stmts r xs).Gives s code s' → s'.errors = s.errors →
    s.Agrees env → s'.Agrees (afterAll r.setting env xs)
  | [], _, _, _, _, h, _, he => by
    rw [stmts] at h
    rw [afterAll,(gives_pure.mp h).2]
    exact he
  | x :: rest, _, _, _, _, h, herr, he => by
    obtain ⟨first,t,more,hx,hxErr,hrest,hrestErr,_⟩ := stmts_cons_ok h herr
    rw [afterAll]
    exact agrees_stmts rest hrest hrestErr (agrees_stmt x hx hxErr he)

end

end scopes

end StackCompiler.Lowering
