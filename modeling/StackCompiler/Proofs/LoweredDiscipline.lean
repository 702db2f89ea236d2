import StackCompiler.Proofs.Discipline
import StackCompiler.Proofs.LoweringCases

/-! Code of expressions and statements keeps the discipline of the operand stack.
An expression leaves its value on whatever stack it finds, and a statement starts and ends with an
empty stack. -/
namespace StackCompiler

theorem Typing.length_arguments {routine : Symbol} {line : Line} {i : Nat} {params args : List Ty}
    {cs : List Coercion} (h : arguments routine line i params args = .ok cs)
    (hlen : params.length = args.length) : cs.length = args.length := by
  induction params generalizing i args cs with
  | nil => cases args with
    | nil => cases h; rfl
    | cons => simp at hlen
  | cons param params ih => cases args with
    | nil => simp at hlen
    | cons arg args =>
      rw [arguments] at h
      split at h
      · cases h
      · cases hrest : arguments routine line (i + 1) params args with
        | error => rw [hrest] at h; cases h
        | ok rest =>
          rw [hrest] at h
          cases h
          simpa using ih hrest (by simpa using hlen)

theorem Typing.length_call {routine : Symbol} {args : List Ty} {line : Line} {cs : List Coercion}
    (h : call routine args line = .ok cs) : cs.length = args.length := by
  unfold call at h
  split at h
  · cases h
  · split at h
    · cases h
    · next hlen => exact length_arguments h (by simpa using hlen)

namespace Lowering

open Lower Code

theorem pushesAll_argumentCode {values : List Value} {cs : List Coercion}
    (hlen : cs.length = values.length) (hv : ∀ x ∈ values, x.code.Pushes) :
    (argumentCode values cs).PushesAll values.length := by
  induction values generalizing cs with
  | nil => exact pushesAll_nil
  | cons x rest ih => cases cs with
    | nil => simp at hlen
    | cons c cs =>
      have hx := ((hv x (by simp)).coerce c).pushesAll
      have hrest := ih (by simpa using hlen) fun y hy => hv y (by simp [hy])
      rw [List.length_cons,Nat.add_comm]
      exact hx.append hrest

section calls

variable {r : Routine} {s s' t : State} {line : Line} {name : String} {args : Lower (List Value)}
  {p : Code × Option Ty} {target : CallTarget} {signature : Symbol} {values : List Value}
  {coercions : List Coercion}

theorem CallCase.pushesAll
    (h : CallCase r name line args s p s' target signature t values coercions)
    (hv : ∀ x ∈ values, x.code.Pushes) :
    (argumentCode values coercions).PushesAll values.length :=
  pushesAll_argumentCode (by simpa using Typing.length_call h.typing) hv

theorem pushes_callValue {v : Value} (h : (callValue r name line args).Gives s v s')
    (hv : ∀ {s values s'}, args.Gives s values s' → ∀ x ∈ values, x.code.Pushes) :
    v.code.Pushes := by
  obtain ⟨target,signature,t,values,coercions,hvoid,_,hc⟩ := callValue_cases h
  have hcode : v.code = _ := hc.code
  rw [hcode,hvoid]
  exact (hc.pushesAll (hv hc.args)).pushes (fun _ => rfl) rfl

theorem pushes_ident {v : Value} (h : (ident r name line).Gives s v s') : v.code.Pushes := by
  have hnone : ∀ {s : State} {values : List Value} {s' : State}, (pure [] : Lower (List Value)).Gives s values s' →
      ∀ x ∈ values, x.code.Pushes := by
    rintro s values s' hp x hx
    rw [(gives_pure.mp hp).1] at hx
    cases hx
  cases ident_cases h with
  | intrinsic _ hc => exact pushes_callValue hc hnone
  | constant => exact pushes_const _
  | stored => exact pushes_load _
  | result => exact pushes_load _
  | call _ _ _ _ hc => exact pushes_callValue hc hnone

end calls

mutual

theorem pushes_expr (r : Routine) : ∀ (e : Expr) {s : State} {v : Value} {s' : State},
    (expr r e).Gives s v s' → v.code.Pushes
  | .literal _ _, _, _, _, h => by
    rw [expr] at h
    obtain ⟨rfl,_⟩ := gives_pure.mp h
    exact pushes_const _
  | .ident _ _, _, _, _, h => pushes_ident (by rwa [expr] at h)
  | .index _ _ indices, _, _, _, h => by
    cases index_cases h with
    | intrinsic _ hc => exact pushes_callValue hc (pushes_exprs r indices)
    | call _ _ _ hc => exact pushes_callValue hc (pushes_exprs r indices)
    | element _ _ _ hp hs =>
      have hlen := (gives_arrayPlace.mp hp).2.2.1
      exact (pushesAll_subscripts r indices hs hlen).pushes (fun _ => rfl) rfl
  | .unary _ op operand, _, _, _, h => by
    obtain ⟨x,base,hx,_,rfl⟩ := gives_unary.mp h
    exact (pushes_expr r operand hx).unary op base
  | .binary _ left op right, _, _, _, h => by
    obtain ⟨x,t,y,typing,hx,hy,_,rfl⟩ := gives_binary.mp h
    have hleft := (pushes_expr r left hx).coerce typing.left
    have hright := (pushes_expr r right hy).coerce typing.right
    simpa using hleft.binary hright typing.op typing.operand
  | .call _ _ args, _, _, _, h => pushes_callValue (by rwa [expr] at h) (pushes_exprs r args)

theorem pushes_exprs (r : Routine) : ∀ (es : List Expr) {s : State} {values : List Value}
    {s' : State}, (exprs r es).Gives s values s' → ∀ x ∈ values, x.code.Pushes
  | [], _, _, _, h => by
    rw [exprs] at h
    simp [(gives_pure.mp h).1]
  | e :: rest, _, _, _, h => by
    obtain ⟨x,t,xs,hx,hxs,rfl⟩ := gives_exprs_cons.mp h
    intro y hy
    rcases List.mem_cons.mp hy with rfl | hy
    · exact pushes_expr r e hx
    · exact pushes_exprs r rest hxs y hy

theorem pushesAll_subscripts (r : Routine) : ∀ (indices : List Expr) {name : String} {array : Place}
    {line : Line} {dim : Nat} {extents : List Extent} {s : State} {code : Code} {s' : State},
    (subscripts r name array line dim extents indices).Gives s code s' →
      extents.length = indices.length → code.PushesAll indices.length
  | [], _, _, _, _, _, _, _, _, h, _ => by
    rw [subscripts] at h
    rw [(gives_pure.mp h).1]
    exact pushesAll_nil
  | _ :: _, _, _, _, _, [], _, _, _, _, hlen => by simp at hlen
  | index :: rest, _, array, _, dim, extent :: extents, _, _, _, h, hlen => by
    obtain ⟨x,t,more,hx,_,_,hm,rfl⟩ := gives_subscripts_cons.mp h
    have hx' := pushes_expr r index hx
    have hmore := pushesAll_subscripts r rest hm (by simpa using hlen)
    have hfirst : (x.code ++ boundsCheck array dim extent).PushesAll 1 := by
      cases extent with
      | fixed => simpa [boundsCheck] using hx'.pushesAll
      | dynamic => exact hx'.check array dim
    rw [List.length_cons,Nat.add_comm]
    exact hfirst.append hmore

end

section statements

variable {r : Routine} {s s' : State} {line : Line} {name : String} {code : Code}

theorem pushesAll_extents {d : Declaration} : ∀ (dimensions : List Extent) {sizes : List Expr}
    {s : State} {code : Code} {s' : State}, (extents r d dimensions sizes).Gives s code s' →
      code.PushesAll dimensions.length
  | [], _, _, _, _, h => by
    rw [extents] at h
    rw [(gives_pure.mp h).1]
    exact pushesAll_nil
  | .fixed _ :: rest, _, _, _, _, h => by
    obtain ⟨more,hm,rfl⟩ := gives_extents_fixed.mp h
    rw [List.length_cons,Nat.add_comm]
    exact (pushes_const _).pushesAll.append (pushesAll_extents rest hm)
  | .dynamic :: _, [], _, _, _, h => by
    rw [extents] at h
    exact absurd h gives_fail
  | .dynamic :: rest, size :: _, _, _, _, h => by
    obtain ⟨x,t,more,hx,_,hm,rfl⟩ := gives_extents_dynamic.mp h
    rw [List.length_cons,Nat.add_comm]
    exact (pushes_expr r size hx).pushesAll.append (pushesAll_extents rest hm)

theorem disciplined_allocate {d : Declaration} {array : Place}
    (h : (allocate r d array).Gives s code s') : code.Disciplined := by
  obtain ⟨sizes,hs,rfl⟩ := gives_allocate.mp h
  exact (pushesAll_extents d.dimensions hs).disciplined fun _ => rfl

theorem disciplined_allocateGlobal {d : Declaration} (h : (allocateGlobal r d).Gives s code s') :
    code.Disciplined := by
  rcases gives_allocateGlobal.mp h with ⟨_,h⟩ | ⟨_,rfl,_⟩
  · exact disciplined_allocate h
  · exact disciplined_nil

theorem disciplined_declaration {d : Declaration} (h : (declaration r d).Gives s code s') :
    code.Disciplined := by
  cases declaration_cases h with
  | global _ h => exact disciplined_allocateGlobal h
  | plain => exact disciplined_nil
  | array _ _ _ h => exact disciplined_allocate h

theorem disciplined_shareAll : ∀ (names : List String) {s : State} {code : Code} {s' : State},
    (shareAll line names).Gives s code s' → code.Disciplined
  | [], _, _, _, h => by
    rw [shareAll] at h
    rw [(gives_pure.mp h).1]
    exact disciplined_nil
  | _ :: rest, _, _, _, h => by
    obtain ⟨symbol,scopes,_,hr⟩ := gives_shareAll_cons.mp h
    exact disciplined_shareAll rest hr

theorem disciplined_assign {target : Target} {value : Expr}
    (h : (assign r target value line).Gives s code s') : code.Disciplined := by
  cases assign_cases h with
  | result _ _ _ _ hx => exact ((pushes_expr r value hx).coerce _).disciplined rfl
  | stored _ _ _ _ hx => exact ((pushes_expr r value hx).coerce _).disciplined rfl
  | element _ _ _ hp hs hx =>
    have hlen := (gives_arrayPlace.mp hp).2.2.1
    have hi := pushesAll_subscripts r _ hs hlen
    have hv := (pushes_expr r value hx).coerce
    rw [List.append_assoc _ _ (Coercion.code _)]
    exact hi.storeElement (hv _) _

theorem disciplined_callStmt {args : List Expr} (h : (callStmt r name args line).Gives s code s') :
    code.Disciplined := by
  obtain ⟨p,hp,rfl⟩ := gives_callStmt.mp h
  obtain ⟨target,signature,t,values,coercions,hc⟩ := call_cases hp
  have hargs := hc.pushesAll (pushes_exprs r args hc.args)
  rw [hc.type,hc.code]
  cases signature.type.isVoid with
  | true => exact hargs.disciplined fun _ => rfl
  | false => exact (hargs.pushes (fun _ => rfl) rfl).disciplined rfl

theorem disciplined_ret {value : Option Expr} (h : (ret r value line).Gives s code s') :
    code.Disciplined := by
  cases ret_cases h with
  | nothing => rfl
  | result => rfl
  | value _ hx => exact ((pushes_expr r _ hx).coerce _).disciplined rfl

theorem disciplined_printAll : ∀ (values : List Expr) {s : State} {code : Code} {s' : State},
    (printAll r line values).Gives s code s' → code.Disciplined
  | [], _, _, _, h => by
    rw [printAll] at h
    rw [(gives_pure.mp h).1]
    rfl
  | e :: rest, _, _, _, h => by
    obtain ⟨x,t,printer,more,hx,_,hm,rfl⟩ := gives_printAll_cons.mp h
    rw [List.append_cons]
    exact ((pushes_expr r e hx).disciplined rfl).append (disciplined_printAll rest hm)

theorem disciplined_stepOf {type : Ty} {step : Option Expr} {p : Code × Step}
    (h : StepCase r type s step p s') : p.1.Disciplined := by
  cases h with
  | one => exact disciplined_nil
  | constant => exact disciplined_nil
  | dynamic _ hx => exact ((pushes_expr r _ hx).coerce _).disciplined rfl

theorem pushes_test (counter : Place) (limit : Slot) (base : BaseType) (step : Step) :
    (step.test counter limit base).Pushes := by
  cases step
  all_goals
    refine ⟨fun _ => rfl,?_⟩
    simp [Straight,Step.test,Step.signed,Instr.isBoundary]

theorem disciplined_forHead {first last : Expr} {step : Option Expr} {head : ForHead}
    (h : (forHead r name first last step line).Gives s head s') : head.code.Disciplined := by
  obtain ⟨found,x,y,cx,cy,stepCode,t,u,v,hc⟩ := forHead_cases h
  have hx := ((pushes_expr r first hc.firstValue).coerce cx).disciplined
    (i := .store head.counter) rfl
  have hy := ((pushes_expr r last hc.lastValue).coerce cy)
  have hlimit := hx.append_pushes hy (i := .store (.slot head.limit)) rfl
  rw [hc.code]
  simpa using hlimit.append (disciplined_stepOf hc.stepValue)

theorem disciplined_loop {head : ForHead} {again test : Label} {body : Code}
    (hh : head.code.Disciplined) (hb : body.Disciplined) :
    (head.loop again test body).Disciplined := by
  have hstart : Disciplined [.branch test,.label again] := rfl
  have hcount : Disciplined ([.load head.counter] ++ head.step.load ++
      [.binary .add head.base,.store head.counter] ++ [.label test]) := by
    cases head.step <;> rfl
  have hall := (((hh.append hstart).append hb).append hcount).append_pushes
    (pushes_test head.counter head.limit head.base head.step) (i := .branchIf true again) rfl
  simpa [ForHead.loop] using hall

theorem pushes_condition {cond : Expr} (h : (condition r cond).Gives s code s') : code.Pushes := by
  obtain ⟨x,hx,_,rfl⟩ := gives_condition.mp h
  exact pushes_expr r cond hx

theorem Disciplined.recover {x : Lower Code} (h : (recover x).Gives s code s')
    (hx : x.Gives s code s' → code.Disciplined) : code.Disciplined := by
  rcases gives_recover.mp h with h | ⟨_,_,_,_,rfl,_⟩
  · exact hx h
  · exact disciplined_nil

end statements

mutual

theorem disciplined_stmt (r : Routine) : ∀ (x : Stmt) {s : State} {code : Code} {s' : State},
    (stmt r x).Gives s code s' → code.Disciplined
  | .declare _ _, _, _, _, h => disciplined_declaration (by rwa [stmt] at h)
  | .share _ names, _, _, _, h => disciplined_shareAll names (by rwa [stmt] at h)
  | .assign .., _, _, _, h => disciplined_assign (by rwa [stmt] at h)
  | .call .., _, _, _, h => disciplined_callStmt (by rwa [stmt] at h)
  | .ifElse _ _ yes no, _, _, _, h => by
    obtain ⟨test,t,yesCode,u,noCode,ht,hyes,hno,rfl⟩ := gives_ifElse.mp h
    have htest := (pushes_condition ht).disciplined
      (i := .branchIf false (t.nextLabel + if no.isEmpty then 0 else 1)) rfl
    have hotherwise : Disciplined
        (if no.isEmpty then [] else [.branch t.nextLabel,.label (t.nextLabel + 1)] ++ noCode) := by
      have hstart : Disciplined [.branch t.nextLabel,.label (t.nextLabel + 1)] := rfl
      split
      · exact disciplined_nil
      · exact hstart.append (disciplined_stmts r no hno)
    exact ((htest.append (disciplined_stmts r yes hyes)).append hotherwise).append rfl
  | .whileDo _ _ body, s, _, _, h => by
    obtain ⟨bodyCode,t,test,hbody,ht,rfl⟩ := gives_whileDo.mp h
    have hstart : Disciplined [.branch (s.nextLabel + 1),.label s.nextLabel] := rfl
    have hlabel : Disciplined [.label (s.nextLabel + 1)] := rfl
    exact ((hstart.append (disciplined_stmts r body hbody)).append hlabel).append_pushes
      (pushes_condition ht) rfl
  | .repeatUntil _ body _, s, _, _, h => by
    obtain ⟨bodyCode,t,test,hbody,ht,rfl⟩ := gives_repeatUntil.mp h
    have hlabel : Disciplined [.label s.nextLabel] := rfl
    exact (hlabel.append (disciplined_stmts r body hbody)).append_pushes (pushes_condition ht) rfl
  | .forTo _ _ _ _ _ body, _, _, _, h => by
    obtain ⟨head,t,bodyCode,hh,hbody,rfl⟩ := gives_forTo.mp h
    exact disciplined_loop (disciplined_forHead hh) (disciplined_stmts r body hbody)
  | .label .., _, _, _, h => by
    rw [stmt] at h
    simp only [gives_bind,gives_pure] at h
    obtain ⟨l,_,_,rfl,_⟩ := h
    rfl
  | .goto .., _, _, _, h => by
    rw [stmt] at h
    simp only [gives_bind,gives_pure] at h
    obtain ⟨l,_,_,rfl,_⟩ := h
    rfl
  | .ret .., _, _, _, h => disciplined_ret (by rwa [stmt] at h)
  | .print _ values, _, _, _, h => disciplined_printAll values (by rwa [stmt] at h)
  | .stop _, _, _, _, h => by
    rw [stmt] at h
    rw [(gives_pure.mp h).1]
    rfl

theorem disciplined_stmts (r : Routine) : ∀ (xs : List Stmt) {s : State} {code : Code} {s' : State},
    (stmts r xs).Gives s code s' → code.Disciplined
  | [], _, _, _, h => by
    rw [stmts] at h
    rw [(gives_pure.mp h).1]
    exact disciplined_nil
  | x :: rest, _, _, _, h => by
    obtain ⟨first,t,more,hx,hm,rfl⟩ := gives_stmts_cons.mp h
    exact (Disciplined.recover hx (disciplined_stmt r x)).append (disciplined_stmts r rest hm)

end

section bodies

variable {r : Routine} {s s' : State} {code : Code}

theorem disciplined_allocateAll : ∀ (ds : List Declaration) {s : State} {code : Code} {s' : State},
    (allocateAll r ds).Gives s code s' → code.Disciplined
  | [], _, _, _, h => by
    rw [allocateAll] at h
    rw [(gives_pure.mp h).1]
    exact disciplined_nil
  | _ :: rest, _, _, _, h => by
    obtain ⟨first,t,more,hd,hm,rfl⟩ := gives_allocateAll_cons.mp h
    exact (Disciplined.recover hd disciplined_allocateGlobal).append (disciplined_allocateAll rest hm)

/-- The closing return may find no value: not every type has a zero. -/
theorem disciplined_epilogue (h : (epilogue r).Gives s code s') : code.Disciplined := by
  cases epilogue_cases h with
  | nothing => rfl
  | result => rfl
  | zero => cases r.returns <;> rfl

theorem disciplined_bodyCode {step : Lower Code} (h : (bodyCode r step).Gives s code s')
    (hstep : ∀ {code : Code} {t : State}, step.Gives s code t → code.Disciplined) :
    code.Disciplined := by
  obtain ⟨body,t,hb,h⟩ := gives_bodyCode.mp h
  rcases h with ⟨_,rfl,_⟩ | ⟨_,more,hm,rfl⟩
  · exact hstep hb
  · exact (hstep hb).append (disciplined_epilogue hm)

end bodies

end Lowering
end StackCompiler
