import StackCompiler.Proofs.LoweringSteps

/-! Putting the body of a routine into code makes only elementary changes to the state. -/
namespace StackCompiler.Lowering

open Lower

/-- A symbol that was found at the depth of the innermost scope is there. -/
def State.Sees (s : State) (found : Symbol × Nat) : Prop :=
  found.2 = s.scopes.depth → s.scopes.Owns found.1

section expressions

variable {r : Routine} {D : Declaration → Prop} {s s' : State} {found : Symbol × Nat} {line : Line}
  {name : String}

theorem sees_of_resolve (h : (resolve name line).Gives s found s') : s'.Sees found := by
  obtain ⟨hf,rfl⟩ := gives_resolve.mp h
  intro hd
  rw [ScopeStack.depth_touch] at hd
  rw [ScopeStack.Owns,ScopeStack.entries_current_touch]
  obtain ⟨symbol,depth⟩ := found
  obtain rfl : depth = s.scopes.depth := hd
  exact ScopeStack.owns_of_resolve hf

theorem stays_place (hst : found.1.hasStorage = true) (hs : s.Sees found) :
    Keeps r D (place r found line) s := by
  unfold place
  simp only
  split
  · exact stays_pure
  · split
    · next hd =>
      refine stays_bind (stays_localSlot (.single (.slot hst ?_))) fun _ _ _ => stays_pure
      intro hr
      exact hs (hd.trans hr.symm)
    · exact stays_fail rfl

theorem stays_resultSlot : Keeps r D (resultSlot r) s := by
  unfold resultSlot
  split
  · exact stays_pure
  · next h => exact stays_bind (stays_localSlot (.single (.result h))) fun _ _ _ => stays_pure

theorem stays_coerce {target value : Ty} : Keeps r D (coerce target value line) s :=
  stays_bind (stays_lift Typing.mild_assign) fun _ _ _ => stays_pure

theorem stays_isIntrinsic : Keeps r D (isIntrinsic r name) s :=
  stays_bind stays_get fun _ _ _ => stays_pure

theorem stays_callee : Keeps r D (callee r name line) s := by
  refine stays_bind stays_get fun _ _ h => ?_
  obtain ⟨rfl,rfl⟩ := gives_get.mp h
  split
  · next found _ =>
    refine stays_bind (stays_set (.single (.touch _ found line))) fun _ _ _ => ?_
    simp only
    split
    · exact stays_pure
    · exact stays_fail rfl
  · split
    · exact stays_pure
    · exact stays_fail rfl

theorem stays_call {args : Lower (List Value)} (h : ∀ s, args.Keeps r D s) :
    Keeps r D (call r name line args) s :=
  stays_bind stays_callee fun _ t _ => stays_bind (h t) fun _ _ _ =>
    stays_bind (stays_lift Typing.mild_call) fun _ _ _ => stays_pure

theorem stays_callValue {args : Lower (List Value)} (h : ∀ s, args.Keeps r D s) :
    Keeps r D (callValue r name line args) s := by
  refine stays_bind (stays_call h) fun p _ _ => ?_
  obtain ⟨code,_ | type⟩ := p
  · exact stays_fail rfl
  · exact stays_pure

theorem stays_ident : Keeps r D (ident r name line) s := by
  refine stays_bind stays_isIntrinsic fun intrinsic t _ => ?_
  split
  · exact stays_callValue fun _ => stays_pure
  · refine stays_bind stays_resolve fun found u h => ?_
    obtain ⟨symbol,depth⟩ := found
    have hs := sees_of_resolve h
    simp only
    split
    · split
      · exact stays_pure
      · exact stays_fail rfl
    · next hc =>
      exact stays_bind (stays_place (by simp [Symbol.hasStorage,hc]) hs) fun _ _ _ => stays_pure
    · next hc =>
      exact stays_bind (stays_place (by simp [Symbol.hasStorage,hc]) hs) fun _ _ _ => stays_pure
    · split
      · exact stays_bind stays_resultSlot fun _ _ _ => stays_pure
      · exact stays_callValue fun _ => stays_pure
    · exact stays_fail rfl

theorem stays_fail_bind {α β : Type} {cause : Cause} {f : α → Lower β}
    (hc : cause.isFatal = false) : Keeps r D (fail line cause >>= f) s :=
  stays_bind (stays_fail hc) fun _ _ h => absurd h gives_fail

theorem stays_arrayPlace {n : Nat} (hs : s.Sees found) : Keeps r D (arrayPlace r found n line) s := by
  unfold arrayPlace
  simp only
  split
  · exact stays_fail_bind rfl
  · next hst =>
    split
    · exact stays_fail_bind rfl
    · split
      · exact stays_fail_bind rfl
      · exact stays_place (by simpa using hst) hs

end expressions

mutual

theorem stays_expr {D : Declaration → Prop} (r : Routine) : ∀ (e : Expr) (s : State),
    (expr r e).Keeps r D s
  | .literal _ _, _ => stays_pure
  | .ident _ _, _ => stays_ident
  | .index line name indices, s => by
    unfold expr
    refine stays_bind stays_isIntrinsic fun intrinsic t _ => ?_
    split
    · exact stays_callValue (stays_exprs r indices)
    · refine stays_bind stays_resolve fun found u h => ?_
      split
      · exact stays_callValue (stays_exprs r indices)
      · refine stays_bind (stays_arrayPlace (sees_of_resolve h)) fun array v _ => ?_
        exact stays_bind (stays_subscripts r _ _ _ _ _ _ _) fun _ _ _ => stays_pure
  | .unary _ _ operand, s => by
    unfold expr
    exact stays_bind (stays_expr r operand s) fun _ _ _ =>
      stays_bind (stays_lift Typing.mild_unary) fun _ _ _ => stays_pure
  | .binary _ left _ right, s => by
    unfold expr
    refine stays_bind (stays_expr r left s) fun _ t _ => ?_
    refine stays_bind (stays_expr r right t) fun _ _ _ => ?_
    exact stays_bind (stays_lift Typing.mild_binary) fun _ _ _ => stays_pure
  | .call _ _ args, _ => stays_callValue (stays_exprs r args)

theorem stays_exprs {D : Declaration → Prop} (r : Routine) : ∀ (es : List Expr) (s : State),
    (exprs r es).Keeps r D s
  | [], _ => stays_pure
  | e :: rest, s => by
    unfold exprs
    refine stays_bind (stays_expr r e s) fun _ t _ => ?_
    exact stays_bind (stays_exprs r rest t) fun _ _ _ => stays_pure

theorem stays_subscripts {D : Declaration → Prop} (r : Routine) (name : String) (array : Place)
    (line : Line) :
    ∀ (dim : Nat) (extents : List Extent) (indices : List Expr) (s : State),
      (subscripts r name array line dim extents indices).Keeps r D s
  | _, _, [], _ => by unfold subscripts; exact stays_pure
  | _, [], _ :: _, _ => by unfold subscripts; exact stays_pure
  | dim, extent :: extents, index :: rest, s => by
    unfold subscripts
    refine stays_bind (stays_expr r index s) fun _ t _ => ?_
    refine stays_bind (stays_lift Typing.mild_expect) fun _ u _ => ?_
    simp only
    split
    · exact stays_fail_bind rfl
    · exact stays_bind (stays_subscripts r name array line (dim + 1) extents rest u)
        fun _ _ _ => stays_pure

end

section declarations

variable {r : Routine} {D : Declaration → Prop} {s : State} {d : Declaration}

theorem stays_extents {D : Declaration → Prop} (r : Routine) (d : Declaration) :
    ∀ (dimensions : List Extent) (sizes : List Expr) (s : State),
      (extents r d dimensions sizes).Keeps r D s
  | [], _, _ => stays_pure
  | .fixed _ :: rest, sizes, s =>
    stays_bind (stays_extents r d rest sizes s) fun _ _ _ => stays_pure
  | .dynamic :: _, [], _ => stays_fail rfl
  | .dynamic :: rest, size :: sizes, s =>
    stays_bind (stays_expr r size s) fun _ _ _ => stays_bind (stays_lift Typing.mild_expect) fun _ u _ =>
      stays_bind (stays_extents r d rest sizes u) fun _ _ _ => stays_pure

theorem stays_allocate {array : Place} : Keeps r D (allocate r d array) s :=
  stays_bind (stays_extents r d _ _ s) fun _ _ _ => stays_pure

theorem stays_allocateGlobal : Keeps r D (allocateGlobal r d) s := by
  unfold allocateGlobal
  split
  · exact stays_bind stays_get fun _ _ _ => stays_allocate
  · exact stays_pure

/-- A declared symbol is in the innermost scope, under the class of its declaration. -/
theorem declare_eq_ok {scopes scopes' : ScopeStack} {symbol : Symbol}
    (h : declare d scopes = (.ok symbol,scopes')) :
    symbol ∈ scopes'.current.symbols ∧ symbol.cls = d.cls := by
  obtain ⟨new,hd,rfl,_,rfl⟩ := declare_cases h
  exact ⟨by simp,(declared_eq_ok hd).2.2.1⟩

theorem stays_declaration (hdecl : D d) : Keeps r D (declaration r d) s := by
  unfold declaration
  split
  · exact stays_allocateGlobal
  · next hr =>
    refine stays_bind (stays_withScopes (fun _ _ h => .single (.declare hr h hdecl))
      (cautious_declare d s.scopes) mild_declare) ?_
    intro symbol t ht
    obtain ⟨scopes,hd,rfl⟩ := gives_withScopes.mp ht
    obtain ⟨hmem,hcls⟩ := declare_eq_ok hd
    split
    · next hroom =>
      refine stays_bind (stays_localSlot (.single (.slot ?_ fun _ => ?_))) fun _ _ _ => stays_allocate
      · simp only [needsRoom,Bool.and_eq_true,beq_iff_eq] at hroom
        simp [Symbol.hasStorage,hcls,hroom.1]
      · exact List.mem_map_of_mem hmem
    · exact stays_pure

end declarations

section statements

variable {r : Routine} {D : Declaration → Prop} {s : State} {line : Line} {name : String}

theorem stays_condition {cond : Expr} : Keeps r D (condition r cond) s :=
  stays_bind (stays_expr r cond s) fun _ _ _ =>
    stays_bind (stays_lift Typing.mild_expect) fun _ _ _ => stays_pure

theorem stays_labelOf : Keeps r D (labelOf r name line) s := by
  refine stays_bind stays_resolve fun found t _ => ?_
  obtain ⟨symbol,depth⟩ := found
  simp only
  split
  · split
    · exact stays_pure
    · exact stays_fail rfl
  · exact stays_fail rfl

theorem stays_shareAll {D : Declaration → Prop} (r : Routine) (line : Line) :
    ∀ (names : List String) (s : State), (shareAll line names).Keeps r D s
  | [], _ => stays_pure
  | _ :: rest, _ =>
    stays_bind (stays_withScopes (fun _ _ h => .single (.share h))
      (ScopeStack.cautious_share _ _ _) ScopeStack.mild_share) fun _ t _ =>
      stays_shareAll r line rest t

theorem stays_assign {target : Target} {value : Expr} : Keeps r D (assign r target value line) s := by
  refine stays_bind stays_resolve fun found t h => ?_
  have hs := sees_of_resolve h
  simp only
  split
  · refine stays_bind (stays_expr r value t) fun _ _ _ => stays_bind stays_coerce fun _ _ _ => ?_
    exact stays_bind stays_resultSlot fun _ _ _ => stays_pure
  · split
    · exact stays_fail rfl
    · next hst =>
      split
      · refine stays_bind (stays_place (by simpa using hst) hs) fun _ u _ => ?_
        refine stays_bind (stays_expr r value u) fun _ _ _ => stays_bind stays_coerce fun _ _ _ => ?_
        split
        · exact stays_fail_bind rfl
        · exact stays_pure
      · refine stays_bind (stays_arrayPlace hs) fun _ u _ => ?_
        refine stays_bind (stays_subscripts r _ _ _ _ _ _ u) fun _ v _ => ?_
        refine stays_bind (stays_expr r value v) fun _ _ _ => ?_
        exact stays_bind stays_coerce fun _ _ _ => stays_pure

theorem stays_callStmt {args : List Expr} : Keeps r D (callStmt r name args line) s :=
  stays_bind (stays_call (stays_exprs r args)) fun _ _ _ => stays_pure

theorem stays_ret {value : Option Expr} : Keeps r D (ret r value line) s := by
  unfold ret
  cases value with
  | none =>
    simp only
    split
    · exact stays_pure
    · refine stays_bind stays_resultSlot fun slot _ _ => ?_
      cases slot with
      | none => exact stays_fail rfl
      | some => exact stays_pure
  | some e =>
    refine stays_bind (stays_expr r e s) fun _ _ _ => ?_
    split
    · exact stays_fail rfl
    · exact stays_bind stays_coerce fun _ _ _ => stays_pure

theorem stays_printAll {D : Declaration → Prop} (r : Routine) (line : Line) :
    ∀ (values : List Expr) (s : State), (printAll r line values).Keeps r D s
  | [], _ => stays_pure
  | e :: rest, s => by
    unfold printAll
    refine stays_bind (stays_expr r e s) fun _ t _ => ?_
    split
    · exact stays_fail rfl
    · exact stays_bind (stays_printAll r line rest t) fun _ _ _ => stays_pure

theorem stays_stepOf {type : Ty} {step : Option Expr} : Keeps r D (stepOf r type step) s := by
  unfold stepOf
  split
  · exact stays_pure
  · split
    · exact stays_bind (stays_lift Typing.mild_assign) fun _ _ _ => stays_pure
    · refine stays_bind (stays_expr r _ s) fun _ _ _ => stays_bind stays_coerce fun _ _ _ => ?_
      exact stays_bind stays_tempSlot fun _ _ _ => stays_pure

theorem stays_forHead {first last : Expr} {step : Option Expr} :
    Keeps r D (forHead r name first last step line) s := by
  refine stays_bind stays_resolve fun found t h => ?_
  have hs := sees_of_resolve h
  simp only
  split
  · exact stays_fail_bind rfl
  · next hst =>
    split
    · exact stays_fail_bind rfl
    · refine stays_bind (stays_place (by simpa using hst) hs) fun _ u _ => ?_
      refine stays_bind (stays_expr r first u) fun _ _ _ => stays_bind stays_coerce fun _ v _ => ?_
      refine stays_bind (stays_expr r last v) fun _ _ _ => stays_bind stays_coerce fun _ _ _ => ?_
      refine stays_bind stays_tempSlot fun _ _ _ => stays_bind stays_stepOf fun _ _ _ => ?_
      exact stays_pure

end statements

def DeclaresOnly (D : Declaration → Prop) (xs : List Stmt) : Prop :=
  ∀ line d, Stmt.declare line d ∈ xs → D d

theorem DeclaresOnly.mono {D : Declaration → Prop} {xs ys : List Stmt} (h : DeclaresOnly D xs)
    (hys : ys ⊆ xs) : DeclaresOnly D ys :=
  fun line d hd => h line d (hys hd)

mutual

theorem keeps_stmt {D : Declaration → Prop} (r : Routine) : ∀ (x : Stmt) (s : State),
    DeclaresOnly D x.flatten → (stmt r x).Keeps r D s
  | .declare line d, _, hd => stays_declaration (hd line d (by simp [Stmt.flatten]))
  | .share line names, s, _ => stays_shareAll r line names s
  | .assign .., _, _ => stays_assign
  | .call .., _, _ => stays_callStmt
  | .ifElse _ _ yes no, s, hd => by
    have hyes : DeclaresOnly D (Stmt.flattenAll yes) := hd.mono (by simp [Stmt.flatten])
    have hno : DeclaresOnly D (Stmt.flattenAll no) := hd.mono (by simp [Stmt.flatten])
    unfold stmt
    refine stays_bind stays_condition fun _ _ _ => stays_bind stays_freshLabel fun _ _ _ => ?_
    simp only
    split
    · refine stays_bind stays_pure fun _ t _ =>
        stays_bind (keeps_stmts r yes t hyes) fun _ u _ => ?_
      exact stays_bind (keeps_stmts r no u hno) fun _ _ _ => stays_pure
    · refine stays_bind stays_freshLabel fun _ t _ =>
        stays_bind (keeps_stmts r yes t hyes) fun _ u _ => ?_
      exact stays_bind (keeps_stmts r no u hno) fun _ _ _ => stays_pure
  | .whileDo _ _ body, s, hd => by
    have hbody : DeclaresOnly D (Stmt.flattenAll body) := hd.mono (by simp [Stmt.flatten])
    unfold stmt
    refine stays_bind stays_freshLabel fun _ _ _ => stays_bind stays_freshLabel fun _ t _ => ?_
    refine stays_bind (keeps_stmts r body t hbody) fun _ _ _ => ?_
    exact stays_bind stays_condition fun _ _ _ => stays_pure
  | .repeatUntil _ body _, s, hd => by
    have hbody : DeclaresOnly D (Stmt.flattenAll body) := hd.mono (by simp [Stmt.flatten])
    unfold stmt
    refine stays_bind stays_freshLabel fun _ t _ => ?_
    refine stays_bind (keeps_stmts r body t hbody) fun _ _ _ => ?_
    exact stays_bind stays_condition fun _ _ _ => stays_pure
  | .forTo _ _ _ _ _ body, s, hd => by
    have hbody : DeclaresOnly D (Stmt.flattenAll body) := hd.mono (by simp [Stmt.flatten])
    unfold stmt
    refine stays_bind stays_forHead fun _ _ _ => ?_
    refine stays_bind stays_freshLabel fun _ _ _ => stays_bind stays_freshLabel fun _ t _ => ?_
    exact stays_bind (keeps_stmts r body t hbody) fun _ _ _ => stays_pure
  | .label .., _, _ => stays_bind stays_labelOf fun _ _ _ => stays_pure
  | .goto .., _, _ => stays_bind stays_labelOf fun _ _ _ => stays_pure
  | .ret .., _, _ => stays_ret
  | .print line values, s, _ => stays_printAll r line values s
  | .stop _, _, _ => stays_pure

theorem keeps_stmts {D : Declaration → Prop} (r : Routine) : ∀ (xs : List Stmt) (s : State),
    DeclaresOnly D (Stmt.flattenAll xs) → (stmts r xs).Keeps r D s
  | [], _, _ => stays_pure
  | x :: rest, s, hd => by
    unfold stmts
    have hx := keeps_stmt r x s (hd.mono (by simp [Stmt.flattenAll]))
    refine stays_bind (stays_recover hx) fun _ t _ => ?_
    have hrest := keeps_stmts r rest t (hd.mono (by simp [Stmt.flattenAll]))
    exact stays_bind hrest fun _ _ _ => stays_pure

end

theorem stays_stmt (r : Routine) (x : Stmt) (s : State) : (stmt r x).Stays r s :=
  keeps_stmt r x s fun _ _ _ => trivial

theorem stays_stmts (r : Routine) (xs : List Stmt) (s : State) : (stmts r xs).Stays r s :=
  keeps_stmts r xs s fun _ _ _ => trivial

section bodies

variable {r : Routine} {D : Declaration → Prop} {s : State}

theorem stays_allocateAll {D : Declaration → Prop} (r : Routine) : ∀ (ds : List Declaration) (s : State),
    (allocateAll r ds).Keeps r D s
  | [], _ => stays_pure
  | _ :: rest, _ =>
    stays_bind (stays_recover stays_allocateGlobal) fun _ t _ =>
      stays_bind (stays_allocateAll r rest t) fun _ _ _ => stays_pure

theorem stays_epilogue : Keeps r D (epilogue r) s := by
  unfold epilogue
  split
  · exact stays_pure
  · refine stays_bind stays_resultSlot fun slot _ _ => ?_
    cases slot <;> exact stays_pure

theorem stays_bodyCode {step : Lower Code} (h : step.Keeps r D s) : Keeps r D (bodyCode r step) s := by
  refine stays_bind h fun _ _ _ => ?_
  split
  · exact stays_pure
  · exact stays_bind stays_epilogue fun _ _ _ => stays_pure

end bodies

end StackCompiler.Lowering
