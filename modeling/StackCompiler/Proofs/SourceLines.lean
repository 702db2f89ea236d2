import StackCompiler.Proofs.Completion

/-! Diagnostics and the lines of the source.
Whatever is found wrong with a unit is told at the line of a declaration, parameter, routine, statement
or expression of it. Each function of the lowering blames only lines of the tree that it is given; what
belongs to no line is either given the line of the routine it arose in, or never arises. -/
namespace StackCompiler

mutual

def Expr.lines : Expr → List Line
  | .literal line _ | .ident line _ => [line]
  | .index line _ indices => line :: Expr.linesAll indices
  | .unary line _ operand => line :: operand.lines
  | .binary line left _ right => line :: (left.lines ++ right.lines)
  | .call line _ args => line :: Expr.linesAll args

def Expr.linesAll : List Expr → List Line
  | [] => []
  | e :: rest => e.lines ++ Expr.linesAll rest

end

theorem Expr.line_mem (e : Expr) : e.line ∈ e.lines := by
  cases e <;> simp [Expr.line,Expr.lines]

def Declaration.lines (d : Declaration) : List Line := d.line :: Expr.linesAll d.extents

mutual

def Stmt.lines : Stmt → List Line
  | .declare line d => line :: d.lines
  | .share line _ | .label line _ | .goto line _ | .stop line => [line]
  | .assign line target value => line :: (Expr.linesAll target.indices ++ value.lines)
  | .call line _ args => line :: Expr.linesAll args
  | .ifElse line cond yes no => line :: (cond.lines ++ (Stmt.linesAll yes ++ Stmt.linesAll no))
  | .whileDo line cond body => line :: (cond.lines ++ Stmt.linesAll body)
  | .repeatUntil line body cond => line :: (Stmt.linesAll body ++ cond.lines)
  | .forTo line _ first last step body =>
    line :: (first.lines ++ (last.lines ++ (Expr.linesAll step.toList ++ Stmt.linesAll body)))
  | .ret line value => line :: Expr.linesAll value.toList
  | .print line values => line :: Expr.linesAll values

def Stmt.linesAll : List Stmt → List Line
  | [] => []
  | x :: rest => x.lines ++ Stmt.linesAll rest

end

mutual

/-- The line of a routine, those of its parameters, and the lines of all that stands inside it. -/
def Routine.lines : Routine → List Line
  | ⟨_,_,params,_,body,routines,line⟩ =>
    line :: (params.map Param.line ++ (Stmt.linesAll body ++ Routine.linesAll routines))

def Routine.linesAll : List Routine → List Line
  | [] => []
  | x :: rest => x.lines ++ Routine.linesAll rest

end

/-- The lines of the declarations, parameters, routines, statements and expressions of a unit. -/
def SourceUnit.lines (u : SourceUnit) : List Line :=
  u.globals.flatMap Declaration.lines ++ (Stmt.linesAll u.main ++ Routine.linesAll u.routines)

mutual

theorem Stmt.lines_flatten (x : Stmt) : ∀ y ∈ x.flatten, y.lines ⊆ x.lines := by
  intro y hy
  cases x <;> simp only [Stmt.flatten,List.mem_cons,List.mem_append,List.not_mem_nil,or_false] at hy
  case ifElse line cond yes no =>
    rcases hy with rfl | hy | hy
    · simp
    · have h := Stmt.lines_flattenAll yes y hy
      intro l hl
      simp [Stmt.lines,h hl]
    · have h := Stmt.lines_flattenAll no y hy
      intro l hl
      simp [Stmt.lines,h hl]
  case whileDo line cond body =>
    rcases hy with rfl | hy
    · simp
    · have h := Stmt.lines_flattenAll body y hy
      intro l hl
      simp [Stmt.lines,h hl]
  case repeatUntil line body cond =>
    rcases hy with rfl | hy
    · simp
    · have h := Stmt.lines_flattenAll body y hy
      intro l hl
      simp [Stmt.lines,h hl]
  case forTo line var first last step body =>
    rcases hy with rfl | hy
    · simp
    · have h := Stmt.lines_flattenAll body y hy
      intro l hl
      simp [Stmt.lines,h hl]
  all_goals
    rw [hy]
    simp

theorem Stmt.lines_flattenAll (xs : List Stmt) :
    ∀ y ∈ Stmt.flattenAll xs, y.lines ⊆ Stmt.linesAll xs := by
  intro y hy
  cases xs with
  | nil => simp [Stmt.flattenAll] at hy
  | cons x rest =>
    simp only [Stmt.flattenAll,List.mem_append] at hy
    rcases hy with hy | hy
    · have h := Stmt.lines_flatten x y hy
      intro l hl
      simp [Stmt.linesAll,h hl]
    · have h := Stmt.lines_flattenAll rest y hy
      intro l hl
      simp [Stmt.linesAll,h hl]

end

theorem Stmt.line_mem_flattenAll {L : List Line} {xs : List Stmt} (h : Stmt.linesAll xs ⊆ L) :
    ∀ x ∈ Stmt.flattenAll xs, x.line ∈ L := by
  intro x hx
  apply h
  apply Stmt.lines_flattenAll xs x hx
  cases x <;> simp [Stmt.line,Stmt.lines]

theorem Routine.line_mem_linesAll {L : List Line} {xs : List Routine} (h : Routine.linesAll xs ⊆ L) :
    ∀ x ∈ xs, x.line ∈ L := by
  induction xs with
  | nil => simp
  | cons x rest ih =>
    rw [Routine.linesAll,List.append_subset] at h
    intro y hy
    rcases List.mem_cons.mp hy with rfl | hy
    · apply h.1
      cases y
      simp [Routine.lines]
    · exact ih h.2 y hy

/-- If the step fails, it blames one of the lines. -/
def Located {α : Type} (L : List Line) (e : Except Diagnostic α) : Prop :=
  ∀ d, e = .error d → d.line ∈ L

section checks

variable {L : List Line} {line : Line}

namespace Typing

theorem line_of_assign {target value : Ty} {d : Diagnostic}
    (h : assign target value line = .error d) : d.line = line := by
  unfold assign at h
  grind

theorem located_assign (hl : line ∈ L) (target value : Ty) : Located L (assign target value line) := by
  intro d h
  rw [line_of_assign h]
  exact hl

theorem located_arguments (hl : line ∈ L) (routine : Symbol) (i : Nat) (params args : List Ty) :
    Located L (arguments routine line i params args) := by
  intro d h
  fun_induction arguments routine line i params args with
  | case1 => cases h; exact hl
  | case2 i param params arg args coercion hc ih =>
    cases hrest : arguments routine line (i + 1) params args with
    | ok cs => rw [hrest] at h; cases h
    | error d' => rw [hrest] at h; cases h; exact ih hrest
  | case3 => cases h

theorem located_call (hl : line ∈ L) (routine : Symbol) (args : List Ty) :
    Located L (call routine args line) := by
  intro d h
  unfold call at h
  split at h
  · cases h; exact hl
  · split at h
    · cases h; exact hl
    · exact located_arguments hl _ _ _ _ d h

theorem located_binary (hl : line ∈ L) (language : Language) (op : BinaryOp) (left right : Ty) :
    Located L (binary language op left right line) := by
  intro d h
  unfold binary at h
  grind

theorem located_unary (hl : line ∈ L) (op : UnaryOp) (operand : Ty) :
    Located L (unary op operand line) := by
  intro d h
  unfold unary at h
  grind

theorem located_expect (hl : line ∈ L) (base : BaseType) (t : Ty) :
    Located L (expect base t line) := by
  intro d h
  unfold expect at h
  grind

end Typing

namespace ScopeStack

theorem located_declare (s : ScopeStack) {symbol : Symbol} (hl : symbol.line ∈ L) :
    Located L (s.declare symbol).1 := by
  intro d h
  unfold declare SymbolTable.declare at h
  cases hs : s.current.lookup symbol.name <;> rw [hs] at h <;> cases h
  exact hl

theorem located_declareGlobal (s : ScopeStack) {symbol : Symbol} (hl : symbol.line ∈ L) :
    Located L (s.declareGlobal symbol).1 := by
  intro d h
  unfold declareGlobal SymbolTable.declare at h
  cases hs : s.global.lookup symbol.name <;> rw [hs] at h <;> cases h
  exact hl

theorem located_share (s : ScopeStack) (name : String) (hl : line ∈ L) :
    Located L (s.share name line).1 := by
  intro d h
  unfold share at h
  grind

end ScopeStack

namespace Lowering

theorem line_of_declared {d : Declaration} {symbol : Symbol} (h : declared d = .ok symbol) :
    symbol.line = d.line := by
  unfold declared at h
  grind [Declaration.symbol]

theorem located_declared {d : Declaration} (hl : d.line ∈ L) : Located L (declared d) := by
  intro e h
  unfold declared at h
  grind [Typing.line_of_assign]

theorem located_declare {d : Declaration} (hl : d.line ∈ L) (scopes : ScopeStack) :
    Located L (declare d scopes).1 := by
  intro e h
  unfold declare at h
  split at h
  · next he =>
    cases h
    exact located_declared hl _ he
  · next symbol hs =>
    apply ScopeStack.located_declare scopes _ e h
    rw [line_of_declared hs]
    exact hl

end Lowering

end checks

namespace Lowering

namespace Lower

/-- Whatever the step fails with or records is at one of the lines. -/
structure Blames {α : Type} (x : Lower α) (L : List Line) : Prop where
  failed : ∀ s, Located L (x.run s).1
  recorded : ∀ s, ∀ d ∈ (x.run s).2.errors, d ∈ s.errors ∨ d.line ∈ L

section blames

variable {α β : Type} {L : List Line} {line : Line}

theorem blames_pure (a : α) : Blames (pure a) L :=
  ⟨by rintro s d ⟨⟩,fun _ _ => .inl⟩

theorem blames_fail (hl : line ∈ L) (cause : Cause) : Blames (fail line cause : Lower α) L :=
  ⟨by rintro s d ⟨⟩; exact hl,fun _ _ => .inl⟩

theorem blames_lift {e : Except Diagnostic α} (he : Located L e) : Blames (lift e) L := by
  cases e with
  | ok a => exact blames_pure a
  | error d => exact ⟨by rintro s d ⟨⟩; exact he _ rfl,fun _ _ => .inl⟩

theorem blames_get : Blames get L :=
  ⟨by rintro s d ⟨⟩,fun _ _ => .inl⟩

theorem blames_bind {x : Lower α} {f : α → Lower β} (hx : x.Blames L) (hf : ∀ a, (f a).Blames L) :
    Blames (x >>= f) L := by
  constructor
  · intro s d h
    rw [run_bind] at h
    rcases hrun : x.run s with ⟨e | a,t⟩
    · rw [hrun] at h
      cases h
      exact hx.failed s d (by rw [hrun])
    · rw [hrun] at h
      exact (hf a).failed t d h
  · intro s d h
    have hs := hx.recorded s
    rw [run_bind] at h
    rcases hrun : x.run s with ⟨e | a,t⟩
    · rw [hrun] at h hs
      exact hs d h
    · rw [hrun] at h hs
      rcases (hf a).recorded t d h with h | h
      · exact hs d h
      · exact .inr h

theorem blames_fail_bind (hl : line ∈ L) (cause : Cause) (f : α → Lower β) :
    Blames (fail line cause >>= f) L :=
  ⟨by rintro s d ⟨⟩; exact hl,fun _ _ => .inl⟩

theorem blames_freshLabel : Blames freshLabel L :=
  ⟨by rintro s d ⟨⟩,fun _ _ => .inl⟩

theorem blames_localSlot (name : String) (type : Ty) : Blames (localSlot name type) L :=
  ⟨by rintro s d ⟨⟩,fun _ _ => .inl⟩

theorem blames_tempSlot (type : Ty) : Blames (tempSlot type) L :=
  ⟨by rintro s d ⟨⟩,fun _ _ => .inl⟩

theorem blames_withScopes {step : ScopeStack → Except Diagnostic α × ScopeStack}
    (h : ∀ scopes, Located L (step scopes).1) : Blames (withScopes step) L := by
  constructor
  · intro s d hd
    rw [run_withScopes] at hd
    exact h s.scopes d hd
  · intro s d hd
    rw [run_withScopes] at hd
    exact .inl hd

theorem blames_resolve (hl : line ∈ L) (name : String) : Blames (resolve name line) L := by
  apply blames_withScopes
  intro scopes d h
  split at h <;> cases h
  exact hl

theorem blames_recover {x : Lower Code} (hx : x.Blames L) : Blames (recover x) L := by
  constructor
  · intro s d h
    rw [run_recover] at h
    rcases hrun : x.run s with ⟨e | code,t⟩ <;> rw [hrun] at h
    · simp only at h
      split at h <;> cases h
      exact hx.failed s d (by rw [hrun])
    · cases h
  · intro s d h
    have hs := hx.recorded s
    rw [run_recover] at h
    rcases hrun : x.run s with ⟨e | code,t⟩ <;> rw [hrun] at h hs
    · simp only at h
      split at h
      · exact hs d h
      · rcases List.mem_append.mp h with h | h
        · exact hs d h
        · rw [List.mem_singleton.mp h]
          exact .inr (hx.failed s e (by rw [hrun]))
    · exact hs d h

end blames
end Lower

open Lower

section expressions

variable {r : Routine} {L : List Line} {line : Line}

theorem blames_place (hl : line ∈ L) (found : Symbol × Nat) : Blames (place r found line) L := by
  unfold place
  simp only
  split
  · exact blames_pure _
  · split
    · exact blames_bind (blames_localSlot _ _) fun _ => blames_pure _
    · exact blames_fail hl _

theorem blames_resultSlot : Blames (resultSlot r) L := by
  unfold resultSlot
  split
  · exact blames_pure _
  · exact blames_bind (blames_localSlot _ _) fun _ => blames_pure _

theorem blames_coerce (hl : line ∈ L) (target value : Ty) : Blames (coerce target value line) L :=
  blames_bind (blames_lift (Typing.located_assign hl _ _)) fun _ => blames_pure _

theorem blames_isIntrinsic (name : String) : Blames (isIntrinsic r name) L :=
  blames_bind blames_get fun _ => blames_pure _

/-- What a call reaches is looked for without a trace among the diagnostics. -/
theorem blames_callee (hl : line ∈ L) (name : String) : Blames (callee r name line) L := by
  constructor
  · intro s d h
    rw [run_callee] at h
    cases hfound : s.scopes.resolveRoutine name with
    | some found =>
      rw [hfound] at h
      simp only at h
      split at h <;> cases h
      exact hl
    | none =>
      rw [hfound] at h
      cases hintrinsic : Intrinsic.find? r.language name with
      | some => rw [hintrinsic] at h; cases h
      | none => rw [hintrinsic] at h; cases h; exact hl
  · intro s d h
    rw [run_callee] at h
    cases hfound : s.scopes.resolveRoutine name with
    | some found => rw [hfound] at h; exact .inl h
    | none =>
      rw [hfound] at h
      cases hintrinsic : Intrinsic.find? r.language name <;> rw [hintrinsic] at h <;> exact .inl h

theorem blames_call (hl : line ∈ L) (name : String) {args : Lower (List Value)} (h : args.Blames L) :
    Blames (call r name line args) L := by
  apply blames_bind (blames_callee hl name)
  intro found
  apply blames_bind h
  intro values
  exact blames_bind (blames_lift (Typing.located_call hl _ _)) fun _ => blames_pure _

theorem blames_callValue (hl : line ∈ L) (name : String) {args : Lower (List Value)}
    (h : args.Blames L) : Blames (callValue r name line args) L := by
  apply blames_bind (blames_call hl name h)
  rintro ⟨code,_ | type⟩
  · exact blames_fail hl _
  · exact blames_pure _

theorem blames_ident (hl : line ∈ L) (name : String) : Blames (ident r name line) L := by
  apply blames_bind (blames_isIntrinsic name)
  intro intrinsic
  split
  · exact blames_callValue hl name (blames_pure _)
  · apply blames_bind (blames_resolve hl name)
    rintro ⟨symbol,depth⟩
    simp only
    split
    · split
      · exact blames_pure _
      · exact blames_fail hl _
    · exact blames_bind (blames_place hl _) fun _ => blames_pure _
    · exact blames_bind (blames_place hl _) fun _ => blames_pure _
    · split
      · exact blames_bind blames_resultSlot fun _ => blames_pure _
      · exact blames_callValue hl name (blames_pure _)
    · exact blames_fail hl _

theorem blames_arrayPlace (hl : line ∈ L) (found : Symbol × Nat) (n : Nat) :
    Blames (arrayPlace r found n line) L := by
  unfold arrayPlace
  simp only
  split
  · exact blames_fail_bind hl _ _
  · split
    · exact blames_fail_bind hl _ _
    · split
      · exact blames_fail_bind hl _ _
      · exact blames_place hl found

end expressions

mutual

theorem blames_expr (r : Routine) {L : List Line} : ∀ e : Expr, e.lines ⊆ L → (expr r e).Blames L
  | .literal _ _, _ => blames_pure _
  | .ident line name, h => by
    rw [Expr.lines,List.cons_subset] at h
    exact blames_ident h.1 name
  | .index line name indices, h => by
    rw [Expr.lines,List.cons_subset] at h
    have hargs := blames_exprs r indices h.2
    unfold expr
    apply blames_bind (blames_isIntrinsic name)
    intro intrinsic
    split
    · exact blames_callValue h.1 name hargs
    · apply blames_bind (blames_resolve h.1 name)
      intro found
      split
      · exact blames_callValue h.1 name hargs
      · apply blames_bind (blames_arrayPlace h.1 found _)
        intro array
        exact blames_bind (blames_subscripts r _ array h.1 0 _ indices h.2) fun _ => blames_pure _
  | .unary line op operand, h => by
    rw [Expr.lines,List.cons_subset] at h
    unfold expr
    apply blames_bind (blames_expr r operand h.2)
    intro value
    exact blames_bind (blames_lift (Typing.located_unary h.1 op _)) fun _ => blames_pure _
  | .binary line left op right, h => by
    rw [Expr.lines,List.cons_subset,List.append_subset] at h
    unfold expr
    apply blames_bind (blames_expr r left h.2.1)
    intro x
    apply blames_bind (blames_expr r right h.2.2)
    intro y
    exact blames_bind (blames_lift (Typing.located_binary h.1 _ op _ _)) fun _ => blames_pure _
  | .call line name args, h => by
    rw [Expr.lines,List.cons_subset] at h
    exact blames_callValue h.1 name (blames_exprs r args h.2)

theorem blames_exprs (r : Routine) {L : List Line} : ∀ es : List Expr, Expr.linesAll es ⊆ L →
    (exprs r es).Blames L
  | [], _ => blames_pure _
  | e :: rest, h => by
    rw [Expr.linesAll,List.append_subset] at h
    unfold exprs
    apply blames_bind (blames_expr r e h.1)
    intro value
    exact blames_bind (blames_exprs r rest h.2) fun _ => blames_pure _

theorem blames_subscripts (r : Routine) (name : String) (array : Place) {line : Line} {L : List Line}
    (hl : line ∈ L) : ∀ (dim : Nat) (extents : List Extent) (indices : List Expr),
    Expr.linesAll indices ⊆ L → (subscripts r name array line dim extents indices).Blames L
  | _, _, [], _ => by unfold subscripts; exact blames_pure _
  | _, [], _ :: _, _ => by unfold subscripts; exact blames_pure _
  | dim, extent :: extents, index :: rest, h => by
    rw [Expr.linesAll,List.append_subset] at h
    unfold subscripts
    apply blames_bind (blames_expr r index h.1)
    intro value
    apply blames_bind (blames_lift (Typing.located_expect hl _ _))
    intro _
    simp only
    split
    · exact blames_fail_bind hl _ _
    · exact blames_bind (blames_subscripts r name array hl (dim + 1) extents rest h.2)
        fun _ => blames_pure _

end

section statements

variable {r : Routine} {L : List Line} {line : Line}

theorem blames_extents (r : Routine) {d : Declaration} (hl : d.line ∈ L) :
    ∀ (dimensions : List Extent) (sizes : List Expr), Expr.linesAll sizes ⊆ L →
      (extents r d dimensions sizes).Blames L
  | [], _, _ => blames_pure _
  | .fixed _ :: rest, sizes, h => blames_bind (blames_extents r hl rest sizes h) fun _ => blames_pure _
  | .dynamic :: _, [], _ => blames_fail hl _
  | .dynamic :: rest, size :: sizes, h => by
    rw [Expr.linesAll,List.append_subset] at h
    apply blames_bind (blames_expr r size h.1)
    intro value
    apply blames_bind (blames_lift (Typing.located_expect hl _ _))
    intro _
    exact blames_bind (blames_extents r hl rest sizes h.2) fun _ => blames_pure _

theorem blames_allocateGlobal {d : Declaration} (h : d.lines ⊆ L) : Blames (allocateGlobal r d) L := by
  rw [Declaration.lines,List.cons_subset] at h
  unfold allocateGlobal
  split
  · apply blames_bind blames_get
    intro s
    exact blames_bind (blames_extents r h.1 _ _ h.2) fun _ => blames_pure _
  · exact blames_pure _

theorem blames_declaration {d : Declaration} (h : d.lines ⊆ L) : Blames (declaration r d) L := by
  unfold declaration
  split
  · exact blames_allocateGlobal h
  · rw [Declaration.lines,List.cons_subset] at h
    apply blames_bind (blames_withScopes (located_declare h.1))
    intro symbol
    split
    · apply blames_bind (blames_localSlot _ _)
      intro slot
      exact blames_bind (blames_extents r h.1 _ _ h.2) fun _ => blames_pure _
    · exact blames_pure _

theorem blames_condition {cond : Expr} (h : cond.lines ⊆ L) : Blames (condition r cond) L := by
  have hl := h cond.line_mem
  apply blames_bind (blames_expr r cond h)
  intro value
  exact blames_bind (blames_lift (Typing.located_expect hl _ _)) fun _ => blames_pure _

theorem blames_labelOf (hl : line ∈ L) (name : String) : Blames (labelOf r name line) L := by
  apply blames_bind (blames_resolve hl name)
  rintro ⟨symbol,depth⟩
  simp only
  split
  · split
    · exact blames_pure _
    · exact blames_fail hl _
  · exact blames_fail hl _

theorem blames_shareAll (hl : line ∈ L) (names : List String) : Blames (shareAll line names) L := by
  induction names with
  | nil => exact blames_pure _
  | cons name rest ih =>
    exact blames_bind (blames_withScopes fun scopes => scopes.located_share name hl) fun _ => ih

theorem blames_assign (hl : line ∈ L) {target : Target} {value : Expr}
    (ht : Expr.linesAll target.indices ⊆ L) (hv : value.lines ⊆ L) :
    Blames (assign r target value line) L := by
  apply blames_bind (blames_resolve hl _)
  intro found
  simp only
  split
  · apply blames_bind (blames_expr r value hv)
    intro v
    apply blames_bind (blames_coerce hl _ _)
    intro coercion
    exact blames_bind blames_resultSlot fun _ => blames_pure _
  · split
    · exact blames_fail hl _
    · split
      · apply blames_bind (blames_place hl found)
        intro p
        apply blames_bind (blames_expr r value hv)
        intro v
        apply blames_bind (blames_coerce hl _ _)
        intro coercion
        split
        · exact blames_fail_bind hl _ _
        · exact blames_pure _
      · apply blames_bind (blames_arrayPlace hl found _)
        intro array
        apply blames_bind (blames_subscripts r _ array hl 0 _ _ ht)
        intro code
        apply blames_bind (blames_expr r value hv)
        intro v
        exact blames_bind (blames_coerce hl _ _) fun _ => blames_pure _

theorem blames_callStmt (hl : line ∈ L) (name : String) {args : List Expr}
    (h : Expr.linesAll args ⊆ L) : Blames (callStmt r name args line) L :=
  blames_bind (blames_call hl name (blames_exprs r args h)) fun _ => blames_pure _

theorem blames_ret (hl : line ∈ L) {value : Option Expr} (h : Expr.linesAll value.toList ⊆ L) :
    Blames (ret r value line) L := by
  unfold ret
  cases value with
  | none =>
    simp only
    split
    · exact blames_pure _
    · apply blames_bind blames_resultSlot
      intro slot
      cases slot with
      | none => exact blames_fail hl _
      | some => exact blames_pure _
  | some e =>
    simp only [Option.toList_some,Expr.linesAll,List.append_nil] at h
    apply blames_bind (blames_expr r e h)
    intro v
    split
    · exact blames_fail hl _
    · exact blames_bind (blames_coerce hl _ _) fun _ => blames_pure _

theorem blames_printAll (r : Routine) (hl : line ∈ L) : ∀ values : List Expr,
    Expr.linesAll values ⊆ L → (printAll r line values).Blames L
  | [], _ => blames_pure _
  | e :: rest, h => by
    rw [Expr.linesAll,List.append_subset] at h
    unfold printAll
    apply blames_bind (blames_expr r e h.1)
    intro v
    split
    · exact blames_fail hl _
    · exact blames_bind (blames_printAll r hl rest h.2) fun _ => blames_pure _

theorem blames_stepOf (type : Ty) {step : Option Expr} (h : Expr.linesAll step.toList ⊆ L) :
    Blames (stepOf r type step) L := by
  unfold stepOf
  split
  · exact blames_pure _
  · next e =>
    simp only [Option.toList_some,Expr.linesAll,List.append_nil] at h
    have hl := h e.line_mem
    split
    · exact blames_bind (blames_lift (Typing.located_assign hl _ _)) fun _ => blames_pure _
    · apply blames_bind (blames_expr r e h)
      intro v
      apply blames_bind (blames_coerce hl _ _)
      intro coercion
      exact blames_bind (blames_tempSlot _) fun _ => blames_pure _

theorem blames_forHead (hl : line ∈ L) (var : String) {first last : Expr} {step : Option Expr}
    (hf : first.lines ⊆ L) (ht : last.lines ⊆ L) (hs : Expr.linesAll step.toList ⊆ L) :
    Blames (forHead r var first last step line) L := by
  apply blames_bind (blames_resolve hl var)
  intro found
  simp only
  split
  · exact blames_fail_bind hl _ _
  · split
    · exact blames_fail_bind hl _ _
    · apply blames_bind (blames_place hl found)
      intro counter
      apply blames_bind (blames_expr r first hf)
      intro x
      apply blames_bind (blames_coerce (hf first.line_mem) _ _)
      intro firstCoercion
      apply blames_bind (blames_expr r last ht)
      intro y
      apply blames_bind (blames_coerce (ht last.line_mem) _ _)
      intro lastCoercion
      apply blames_bind (blames_tempSlot _)
      intro limit
      exact blames_bind (blames_stepOf _ hs) fun _ => blames_pure _

end statements

mutual

theorem blames_stmt (r : Routine) {L : List Line} : ∀ x : Stmt, x.lines ⊆ L → (stmt r x).Blames L
  | .declare line d, h => by
    rw [Stmt.lines,List.cons_subset] at h
    exact blames_declaration h.2
  | .share line names, h => by
    rw [Stmt.lines,List.cons_subset] at h
    exact blames_shareAll h.1 names
  | .assign line target value, h => by
    rw [Stmt.lines,List.cons_subset,List.append_subset] at h
    exact blames_assign h.1 h.2.1 h.2.2
  | .call line name args, h => by
    rw [Stmt.lines,List.cons_subset] at h
    exact blames_callStmt h.1 name h.2
  | .ifElse line cond yes no, h => by
    rw [Stmt.lines,List.cons_subset,List.append_subset,List.append_subset] at h
    unfold stmt
    apply blames_bind (blames_condition h.2.1)
    intro test
    apply blames_bind blames_freshLabel
    intro done
    simp only
    have hrest : ∀ join : Code → Code → Code, Blames (do
        let yesCode ← stmts r yes
        let noCode ← stmts r no
        pure (join yesCode noCode)) L := by
      intro join
      apply blames_bind (blames_stmts r yes h.2.2.1)
      intro yesCode
      exact blames_bind (blames_stmts r no h.2.2.2) fun _ => blames_pure _
    split
    · exact blames_bind (blames_pure _) fun _ => hrest _
    · exact blames_bind blames_freshLabel fun _ => hrest _
  | .whileDo line cond body, h => by
    rw [Stmt.lines,List.cons_subset,List.append_subset] at h
    unfold stmt
    apply blames_bind blames_freshLabel
    intro again
    apply blames_bind blames_freshLabel
    intro test
    apply blames_bind (blames_stmts r body h.2.2)
    intro bodyCode
    exact blames_bind (blames_condition h.2.1) fun _ => blames_pure _
  | .repeatUntil line body cond, h => by
    rw [Stmt.lines,List.cons_subset,List.append_subset] at h
    unfold stmt
    apply blames_bind blames_freshLabel
    intro again
    apply blames_bind (blames_stmts r body h.2.1)
    intro bodyCode
    exact blames_bind (blames_condition h.2.2) fun _ => blames_pure _
  | .forTo line var first last step body, h => by
    rw [Stmt.lines,List.cons_subset,List.append_subset,List.append_subset,List.append_subset] at h
    unfold stmt
    apply blames_bind (blames_forHead h.1 var h.2.1 h.2.2.1 h.2.2.2.1)
    intro head
    apply blames_bind blames_freshLabel
    intro again
    apply blames_bind blames_freshLabel
    intro test
    exact blames_bind (blames_stmts r body h.2.2.2.2) fun _ => blames_pure _
  | .label line name, h => by
    rw [Stmt.lines,List.cons_subset] at h
    exact blames_bind (blames_labelOf h.1 name) fun _ => blames_pure _
  | .goto line name, h => by
    rw [Stmt.lines,List.cons_subset] at h
    exact blames_bind (blames_labelOf h.1 name) fun _ => blames_pure _
  | .ret line value, h => by
    rw [Stmt.lines,List.cons_subset] at h
    exact blames_ret h.1 h.2
  | .print line values, h => by
    rw [Stmt.lines,List.cons_subset] at h
    exact blames_printAll r h.1 values h.2
  | .stop _, _ => blames_pure _

theorem blames_stmts (r : Routine) {L : List Line} : ∀ xs : List Stmt, Stmt.linesAll xs ⊆ L →
    (stmts r xs).Blames L
  | [], _ => blames_pure _
  | x :: rest, h => by
    rw [Stmt.linesAll,List.append_subset] at h
    unfold stmts
    apply blames_bind (blames_recover (blames_stmt r x h.1))
    intro code
    exact blames_bind (blames_stmts r rest h.2) fun _ => blames_pure _

end

section routines

variable {L : List Line} {r : Routine}

theorem blames_bodyCode {step : Lower Code} (h : step.Blames L) : Blames (bodyCode r step) L := by
  apply blames_bind h
  intro code
  split
  · exact blames_pure _
  · apply blames_bind _ fun _ => blames_pure _
    unfold epilogue
    split
    · exact blames_pure _
    · apply blames_bind blames_resultSlot
      intro slot
      cases slot <;> exact blames_pure _

theorem blames_allocateAll (r : Routine) (ds : List Declaration)
    (h : ds.flatMap Declaration.lines ⊆ L) : Blames (allocateAll r ds) L := by
  induction ds with
  | nil => exact blames_pure _
  | cons d rest ih =>
    rw [List.flatMap_cons,List.append_subset] at h
    unfold allocateAll
    apply blames_bind (blames_recover (blames_allocateGlobal h.1))
    intro code
    exact blames_bind (ih h.2) fun _ => blames_pure _

def Progress.Blames (L : List Line) (p p' : Progress) : Prop :=
  ∀ d ∈ p'.errors, d ∈ p.errors ∨ d.line ∈ L

theorem Progress.Blames.refl (p : Progress) : p.Blames L p := fun _ => .inl

theorem Progress.Blames.trans {p q p' : Progress} (h₁ : p.Blames L q) (h₂ : q.Blames L p') :
    p.Blames L p' := by
  intro d hd
  rcases h₂ d hd with hd | hd
  · exact h₁ d hd
  · exact .inr hd

/-- Only diagnostics at the given lines are recorded, and no entry point is added. -/
structure Progress.Prepares (L : List Line) (p p' : Progress) : Prop where
  entryPoints : p'.entryPoints = p.entryPoints
  blames : p.Blames L p'

theorem Progress.Prepares.trans {p q p' : Progress} (h₁ : p.Prepares L q) (h₂ : q.Prepares L p') :
    p.Prepares L p' :=
  ⟨h₂.entryPoints.trans h₁.entryPoints,h₁.blames.trans h₂.blames⟩

section preparing

variable {p p' : Progress}

theorem prepares_attempt {α : Type} {step : ScopeStack → Except Diagnostic α × ScopeStack}
    {a : Option α} (h : (Assemble.attempt step).Gives p a p')
    (hl : ∀ scopes, Located L (step scopes).1) : p.Prepares L p' := by
  rcases gives_attempt.mp h with ⟨_,_,_,_,rfl⟩ | ⟨d,_,hd,_,rfl⟩
  · exact ⟨rfl,.refl _⟩
  · refine ⟨rfl,fun e he => ?_⟩
    rcases List.mem_append.mp he with he | he
    · exact .inl he
    · rw [List.mem_singleton.mp he]
      exact .inr (hl _ d (congrArg Prod.fst hd))

theorem prepares_declareParams (params : List Param) (hl : params.map Param.line ⊆ L)
    {frame frame' : Frame} (h : (declareParams frame params).Gives p frame' p') :
    p.Prepares L p' := by
  induction params generalizing frame p with
  | nil =>
    rw [declareParams] at h
    rw [(gives_pure.mp h).2]
    exact ⟨rfl,.refl _⟩
  | cons x rest ih =>
    rw [List.map_cons,List.cons_subset] at hl
    rw [declareParams,gives_bind] at h
    obtain ⟨declared,q,hd,h⟩ := h
    apply Progress.Prepares.trans (prepares_attempt hd _) (ih hl.2 h)
    intro scopes d he
    split at he
    · cases he
      exact hl.1
    · exact scopes.located_declare hl.1 d he

theorem prepares_declareNested {parent : String} (nested : List StackCompiler.Routine)
    (hl : ∀ x ∈ nested, x.line ∈ L) {u : Unit}
    (h : (declareNested parent nested).Gives p u p') : p.Prepares L p' := by
  induction nested generalizing p with
  | nil =>
    rw [declareNested] at h
    rw [(gives_pure.mp h).2]
    exact ⟨rfl,.refl _⟩
  | cons x rest ih =>
    simp only [declareNested,gives_bind,gives_keyOf] at h
    obtain ⟨_,_,⟨rfl,rfl⟩,_,q,hd,h⟩ := h
    apply Progress.Prepares.trans (prepares_attempt hd _) (ih (fun y hy => hl y (by simp [hy])) h)
    intro scopes
    exact scopes.located_declare (hl x (by simp))

theorem prepares_declareRoutines (xs : List StackCompiler.Routine) (hl : ∀ x ∈ xs, x.line ∈ L)
    {u : Unit} (h : (declareRoutines xs).Gives p u p') : p.Prepares L p' := by
  induction xs generalizing p with
  | nil =>
    rw [declareRoutines] at h
    rw [(gives_pure.mp h).2]
    exact ⟨rfl,.refl _⟩
  | cons x rest ih =>
    simp only [declareRoutines,gives_bind,gives_keyOf] at h
    obtain ⟨_,_,⟨rfl,rfl⟩,_,q,hd,h⟩ := h
    apply Progress.Prepares.trans (prepares_attempt hd _) (ih (fun y hy => hl y (by simp [hy])) h)
    intro scopes
    exact scopes.located_declareGlobal (hl x (by simp))

theorem prepares_declareAll (ds : List Declaration) (hl : ∀ d ∈ ds, d.line ∈ L) {u : Unit}
    (h : (declareAll ds).Gives p u p') : p.Prepares L p' := by
  induction ds generalizing p with
  | nil =>
    rw [declareAll] at h
    rw [(gives_pure.mp h).2]
    exact ⟨rfl,.refl _⟩
  | cons d rest ih =>
    rw [declareAll,gives_bind] at h
    obtain ⟨_,q,hd,h⟩ := h
    apply Progress.Prepares.trans (prepares_attempt hd _) (ih (fun y hy => hl y (by simp [hy])) h)
    exact located_declare (hl d (by simp))

theorem prepares_declareLabels (xs : List Stmt) (hl : ∀ x ∈ xs, x.line ∈ L)
    {labels : List (String × Label)} (h : (declareLabels xs).Gives p labels p') :
    p.Prepares L p' := by
  induction xs generalizing p labels with
  | nil =>
    rw [declareLabels] at h
    rw [(gives_pure.mp h).2]
    exact ⟨rfl,.refl _⟩
  | cons x rest ih =>
    have hrest : ∀ y ∈ rest, y.line ∈ L := fun y hy => hl y (by simp [hy])
    by_cases hx : ∃ line name, x = .label line name
    · obtain ⟨line,name,rfl⟩ := hx
      have hline : line ∈ L := hl _ List.mem_cons_self
      obtain ⟨declared,q,hd,h⟩ := declareLabels_label h
      have hq := prepares_attempt hd fun scopes => scopes.located_declare hline
      rcases h with ⟨_,h⟩ | ⟨_,more,_,h,_⟩
      · exact hq.trans (ih hrest h)
      · have hnumber : q.Prepares L (q.number 1) := ⟨rfl,.refl _⟩
        exact hq.trans (hnumber.trans (ih hrest h))
    · rw [declareLabels_other fun line name he => hx ⟨line,name,he⟩] at h
      exact ih hrest h

end preparing

/-- A routine that is finished blames the lines of its body, and its own if its entry name is taken. -/
theorem blames_finish {line : Line} {params mark : Nat} {frame : Frame} {step : Lower Code}
    {p p' : Progress} {u : Unit} (hstep : step.Blames L)
    (h : (finish r line params mark frame step).Gives p u p') (hl : p.entryPoints = [] ∨ line ∈ L) :
    p.Blames L p' := by
  obtain ⟨code,s,hbody,h⟩ := finish_cases h
  have hs : p.Blames L (p.after s) := by
    have hrecorded := (blames_bodyCode (r := r) hstep).recorded (p.state frame)
    rw [show (bodyCode r step).run (p.state frame) = (.ok code,s) from hbody] at hrecorded
    exact hrecorded
  rcases h with ⟨htaken,rfl⟩ | ⟨_,rfl⟩
  · have hline : line ∈ L := by
      rcases hl with hl | hl
      · rw [hl] at htaken
        exact absurd rfl htaken
      · exact hl
    apply hs.trans
    intro d hd
    rcases List.mem_append.mp hd with hd | hd
    · exact .inl hd
    · rw [List.mem_singleton.mp hd]
      exact .inr hline
  · exact hs

end routines

mutual

theorem blames_routine (language : Language) {L : List Line} : ∀ (x : StackCompiler.Routine)
    {entry : String} {u : Unit} {p p' : Progress}, x.lines ⊆ L →
    (routine language entry x).Gives p u p' → p.Blames L p'
  | ⟨name,discipline,params,returns,body,nested,line⟩, entry, u, p, p', hl, h => by
    rw [Routine.lines,List.cons_subset,List.append_subset,List.append_subset] at hl
    obtain ⟨hline,hparams,hbody,hnested⟩ := hl
    rw [routine,gives_bind] at h
    obtain ⟨opened,p₁,hopened,h⟩ := h
    have h₁ : p.Blames L p₁ := by
      apply (prepares_attempt hopened _).blames
      intro scopes d hd
      rcases hs : scopes.push name discipline with ⟨_ | _,_⟩ <;> rw [hs] at hd <;> cases hd
      exact hline
    apply h₁.trans
    cases opened with
    | none =>
      obtain ⟨_,rfl⟩ := gives_pure.mp h
      exact .refl _
    | some handle =>
      simp only [gives_bind,gives_get,gives_keyOf] at h
      obtain ⟨_,_,⟨rfl,rfl⟩,_,_,⟨rfl,rfl⟩,frame,p₂,h₂,_,p₃,h₃,labels,p₄,h₄,_,p₅,h₅,v,_,h₆,_,q,
        ⟨rfl,rfl⟩,h⟩ := h
      have hbefore := (prepares_declareParams params hparams h₂).trans
        ((prepares_declareNested nested (Routine.line_mem_linesAll hnested) h₃).trans
          (prepares_declareLabels _ (Stmt.line_mem_flattenAll hbody) h₄))
      have hfinished := blames_finish (blames_stmts _ body hbody) h₅ (.inr hline)
      apply hbefore.blames.trans (hfinished.trans ((blames_routines language nested hnested h₆).trans _))
      split at h
      · rw [gives_bind] at h
        obtain ⟨_,_,_,h⟩ := h
        exact absurd h gives_throw
      · rw [gives_set.mp h]
        exact fun _ => .inl

theorem blames_routines (language : Language) {L : List Line} : ∀ (xs : List StackCompiler.Routine)
    {parent : String} {u : Unit} {p p' : Progress}, Routine.linesAll xs ⊆ L →
    (routines language parent xs).Gives p u p' → p.Blames L p'
  | [], _, _, _, _, _, h => by
    rw [routines] at h
    rw [(gives_pure.mp h).2]
    exact .refl _
  | x :: rest, _, _, _, _, hl, h => by
    rw [Routine.linesAll,List.append_subset] at hl
    rw [routines] at h
    simp only [gives_bind,gives_keyOf] at h
    obtain ⟨_,_,⟨rfl,rfl⟩,_,q,hx,h⟩ := h
    exact (blames_routine language x hl.1 hx).trans (blames_routines language rest hl.2 h)

end

section units

variable {L : List Line} {p p' : Progress}

theorem blames_topLevel (language : Language) (xs : List StackCompiler.Routine)
    (hl : Routine.linesAll xs ⊆ L) {u : Unit} (h : (topLevel language xs).Gives p u p') :
    p.Blames L p' := by
  induction xs generalizing p with
  | nil =>
    rw [topLevel] at h
    rw [(gives_pure.mp h).2]
    exact .refl _
  | cons x rest ih =>
    rw [Routine.linesAll,List.append_subset] at hl
    simp only [topLevel,gives_bind,gives_keyOf] at h
    obtain ⟨_,_,⟨rfl,rfl⟩,_,q,hx,h⟩ := h
    exact (blames_routine language x hl.1 hx).trans (ih hl.2 h)

theorem line_mem_declarations {globals : List Declaration} {main : List Stmt}
    (hg : globals.flatMap Declaration.lines ⊆ L) (hm : Stmt.linesAll main ⊆ L) :
    ∀ d ∈ globals ++ mainDeclarations main, d.line ∈ L := by
  intro d hd
  rcases List.mem_append.mp hd with hd | hd
  · apply hg
    exact List.mem_flatMap.mpr ⟨d,hd,by simp [Declaration.lines]⟩
  · obtain ⟨x,hx,hd⟩ := List.mem_filterMap.mp hd
    apply hm
    apply Stmt.lines_flattenAll main x hx
    cases x <;> cases hd
    simp [Stmt.lines,Declaration.lines]

/-- The main program has no line of its own, but its entry name is never taken: it comes first. -/
theorem blames_sourceUnit {u : SourceUnit} {v : Unit} (hp : p.entryPoints = [])
    (h : (sourceUnit u).Gives p v p') : p.Blames u.lines p' := by
  have hl : u.lines ⊆ u.lines := fun _ => id
  nth_rewrite 1 [SourceUnit.lines] at hl
  rw [List.append_subset,List.append_subset] at hl
  obtain ⟨hglobals,hmain,hroutines⟩ := hl
  simp only [sourceUnit,gives_bind,gives_get,gives_keyOf] at h
  obtain ⟨_,p₁,h₁,_,_,h₂,_,_,⟨rfl,rfl⟩,_,p₂,⟨rfl,rfl⟩,labels,p₃,h₃,_,p₄,h₄,h₅⟩ := h
  have hbefore := (prepares_declareAll _ (line_mem_declarations hglobals hmain) h₁).trans
    ((prepares_declareRoutines _ (Routine.line_mem_linesAll hroutines) h₂).trans
      (prepares_declareLabels _ (Stmt.line_mem_flattenAll hmain) h₃))
  have hbody : ∀ r : Routine, (mainBody r u).Blames u.lines := by
    intro r
    apply blames_bind (blames_allocateAll r u.globals hglobals)
    intro arrays
    exact blames_bind (blames_stmts r u.main hmain) fun _ => blames_pure _
  have hfinished := blames_finish (hbody _) h₄ (.inl (hbefore.entryPoints.trans hp))
  exact hbefore.blames.trans (hfinished.trans (blames_topLevel _ _ hroutines h₅))

end units

end Lowering

open Lowering in
/-- A unit that does not compile has diagnostics, and each is at the line of a declaration, parameter,
routine, statement or expression of the unit. So if all of these have lines, every diagnostic has one. -/
theorem SourceUnit.compile_blames_lines {u : SourceUnit} {o : CompileOptions} {ds : List Diagnostic}
    (h : u.compile o = .error ds) : ds ≠ [] ∧ ∀ d ∈ ds, d.line ∈ u.lines := by
  obtain ⟨p,hp,_,hrun⟩ := exists_run u (o.caseRule u)
  unfold compile at h
  rw [hrun] at h
  split at h
  · cases h
  · next hempty =>
    cases h
    refine ⟨by simpa using hempty,fun d hd => ?_⟩
    rcases blames_sourceUnit rfl hp d hd with hd | hd
    · cases hd
    · exact hd

/-- Faults in many places: a name that is declared twice, a subscript out of range inside a call, a
branch to nowhere inside a loop and the condition of the loop, a parameter of a type that arrays cannot
have, a name that cannot be shared, a routine inside a routine, and a routine named like the unit. -/
def faulty : SourceUnit :=
  { name := "FAULTY"
    language := .fortran
    globals := [{ name := "A", base := .integer, dimensions := [.fixed 3], line := 1 }]
    main :=
      [.declare 2 { name := "B", base := .double, line := 3 },
        .declare 4 { name := "a", base := .char, line := 5 },
        .assign 6 { name := "B" } (.call 6 "SQRT" [.index 7 "A" [.literal 7 (.integer 4)]]),
        .whileDo 8 (.ident 9 "B") [.goto 10 "NOWHERE"]]
    routines :=
      [{ name := "Outer"
         params := [{ name := "X", base := .void, dimensions := [.dynamic], line := 12 }]
         body := [.share 13 ["B","C"]]
         routines := [{ name := "Inner", body := [], line := 14 }]
         line := 11 },
        { name := "Faulty", body := [.stop 16], line := 15 }] }

theorem SourceUnit.compile_blames_lines_faulty :
    noLine ∉ faulty.lines ∧ ∃ ds, faulty.compile {} = .error ds ∧
      ds.map Diagnostic.line = [5,7,10,9,12,13,14,15] ∧ ds ≠ [] ∧
      ∀ d ∈ ds, d.line ∈ faulty.lines := by
  have hlines : (diagnostics (faulty.compile {})).map Diagnostic.line =
      [5,7,10,9,12,13,14,15] := by decide +kernel
  refine ⟨by decide +kernel,?_⟩
  cases hcompile : faulty.compile {} with
  | ok m =>
    rw [hcompile] at hlines
    cases hlines
  | error ds =>
    rw [hcompile] at hlines
    exact ⟨ds,rfl,hlines,SourceUnit.compile_blames_lines hcompile⟩

end StackCompiler
