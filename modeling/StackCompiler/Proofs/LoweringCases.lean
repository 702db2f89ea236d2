import StackCompiler.Proofs.LoweringSteps

/-! The ways in which expressions and statements are put into code.
Each predicate lists the successes of one function of the lowering, with the code that each of them
gives. -/
namespace StackCompiler.Lowering

open Lower

def State.touch (s : State) (found : Symbol × Nat) (line : Line) : State :=
  { s with scopes := s.scopes.touch found line }

def State.withLocal (s : State) (name : String) (type : Ty) : State :=
  { s with frame := (s.frame.localVar name type).2 }

def State.MeansIntrinsic (s : State) (r : Routine) (name : String) : Prop :=
  s.scopes.resolve name = none ∧ (Intrinsic.find? r.language name).isSome = true

section places

variable {r : Routine} {s s' : State} {found : Symbol × Nat} {line : Line} {name : String}

theorem gives_place {p : Place} :
    (place r found line).Gives s p s' ↔
      found.2 = 0 ∧ p = .global found.1.key ∧ s' = s ∨
      found.2 ≠ 0 ∧ found.2 = r.depth ∧ p = .slot (s.frame.localVar found.1.key found.1.type).1 ∧
        s' = s.withLocal found.1.key found.1.type := by
  simp only [place,gives_ite,gives_pure,gives_bind,gives_localSlot,gives_fail,State.withLocal]
  grind

theorem gives_resultSlot {slot : Option Slot} :
    (resultSlot r).Gives s slot s' ↔
      r.resultName = none ∧ slot = none ∧ s' = s ∨
      ∃ name, r.resultName = some name ∧
        slot = some (s.frame.localVar name (.scalar r.returns)).1 ∧
        s' = s.withLocal name (.scalar r.returns) := by
  unfold resultSlot
  split
  · next h => simp [h]
  · next h =>
    simp only [gives_bind,gives_localSlot,gives_pure,State.withLocal]
    grind

theorem gives_coerce {target value : Ty} {code : Code} :
    (coerce target value line).Gives s code s' ↔
      ∃ c, Typing.assign target value line = .ok c ∧ code = c.code ∧ s' = s := by
  simp only [coerce,gives_bind,gives_lift,gives_pure]
  grind

theorem gives_isIntrinsic {b : Bool} :
    (isIntrinsic r name).Gives s b s' ↔ (b = true ↔ s.MeansIntrinsic r name) ∧ s' = s := by
  simp only [isIntrinsic,gives_bind,gives_get,gives_pure,State.MeansIntrinsic]
  constructor
  · rintro ⟨_,_,⟨rfl,rfl⟩,rfl,rfl⟩
    simp
  · rintro ⟨hb,rfl⟩
    refine ⟨s',s',⟨rfl,rfl⟩,?_,rfl⟩
    rw [Bool.eq_iff_iff,hb]
    simp

theorem gives_arrayPlace {n : Nat} {p : Place} :
    (arrayPlace r found n line).Gives s p s' ↔
      found.1.hasStorage = true ∧ found.1.type.isScalar = false ∧ found.1.type.rank = n ∧
        (place r found line).Gives s p s' := by
  unfold arrayPlace
  simp only [gives_ite,gives_bind,gives_fail,false_and,exists_const]
  grind

end places

section calls

variable {r : Routine} {s s' : State} {line : Line} {name : String}

inductive CalleeCase (r : Routine) (name : String) (line : Line) (s : State) :
    CallTarget × Symbol → State → Prop
  | routine {symbol : Symbol} {depth : Nat}
    (hr : s.scopes.resolveRoutine name = some (symbol,depth)) (hf : symbol.isRoutine = true) :
    CalleeCase r name line s (.routine (symbol.entry.getD symbol.key),symbol)
      (s.touch (symbol,depth) line)
  | intrinsic {i : Intrinsic} (hr : s.scopes.resolveRoutine name = none)
    (hi : Intrinsic.find? r.language name = some i) :
    CalleeCase r name line s (.runtime i.runtime,i.symbol line) s

theorem run_callee (name : String) (line : Line) (s : State) :
    (callee r name line).run s = match s.scopes.resolveRoutine name with
      | some found =>
        (if found.1.isRoutine then .ok (.routine (found.1.entry.getD found.1.key),found.1)
          else .error ⟨line,.notCallable name found.1.cls⟩,s.touch found line)
      | none =>
        match Intrinsic.find? r.language name with
        | some intrinsic => (.ok (.runtime intrinsic.runtime,intrinsic.symbol line),s)
        | none => (.error ⟨line,.unresolvedSymbol name⟩,s) := by
  unfold callee
  rw [run_bind]
  change ((match s.scopes.resolveRoutine name with
    | some found => _
    | none => _) : Lower (CallTarget × Symbol)).run s = _
  cases s.scopes.resolveRoutine name with
  | some found =>
    simp only
    split <;> rfl
  | none => cases Intrinsic.find? r.language name <;> rfl

theorem callee_cases {p : CallTarget × Symbol} (h : (callee r name line).Gives s p s') :
    CalleeCase r name line s p s' := by
  unfold callee at h
  simp only [gives_bind,gives_get] at h
  obtain ⟨_,_,⟨rfl,rfl⟩,h⟩ := h
  split at h
  · next found hr =>
    simp only [gives_bind,gives_set,gives_ite,gives_pure,gives_fail] at h
    obtain ⟨_,_,rfl,h⟩ := h
    obtain ⟨hf,rfl,rfl⟩ : _ ∧ _ ∧ _ := by simpa using h
    exact .routine hr hf
  · next hr =>
    split at h
    · next i hi =>
      obtain ⟨rfl,rfl⟩ := gives_pure.mp h
      exact .intrinsic hr hi
    · exact absurd h gives_fail

structure CallCase (r : Routine) (name : String) (line : Line) (args : Lower (List Value))
    (s : State) (p : Code × Option Ty) (s' : State) (target : CallTarget) (signature : Symbol)
    (t : State) (values : List Value) (coercions : List Coercion) : Prop where
  callee : CalleeCase r name line s (target,signature) t
  args : args.Gives t values s'
  typing : Typing.call signature (values.map Value.type) line = .ok coercions
  code : p.1 = argumentCode values coercions ++ [.call target values.length !signature.type.isVoid]
  type : p.2 = if signature.type.isVoid then none else some signature.type

theorem call_cases {args : Lower (List Value)} {p : Code × Option Ty}
    (h : (call r name line args).Gives s p s') :
    ∃ target signature t values coercions,
      CallCase r name line args s p s' target signature t values coercions := by
  simp only [call,gives_bind,gives_lift,gives_pure] at h
  obtain ⟨⟨target,signature⟩,t,hc,values,_,ha,coercions,_,⟨ht,rfl⟩,rfl,rfl⟩ := h
  refine ⟨target,signature,t,values,coercions,callee_cases hc,ha,ht,rfl,?_⟩
  cases signature.type.isVoid <;> rfl

theorem callValue_cases {args : Lower (List Value)} {v : Value}
    (h : (callValue r name line args).Gives s v s') :
    ∃ target signature t values coercions, signature.type.isVoid = false ∧
      v.type = signature.type ∧
      CallCase r name line args s (v.code,some v.type) s' target signature t values coercions := by
  simp only [callValue,gives_bind] at h
  obtain ⟨⟨code,type⟩,t,hc,h⟩ := h
  cases type with
  | none => exact absurd h gives_fail
  | some type =>
    obtain ⟨rfl,rfl⟩ := gives_pure.mp h
    obtain ⟨target,signature,t,values,coercions,hcall⟩ := call_cases hc
    have ht := hcall.type
    simp only at ht
    split at ht
    · cases ht
    · next hv => exact ⟨target,signature,t,values,coercions,by simpa using hv,by simpa using ht,hcall⟩

end calls

section expressions

variable {r : Routine} {s s' : State} {line : Line} {name : String} {v : Value}

inductive IdentCase (r : Routine) (name : String) (line : Line) (s : State) : Value → State → Prop
  | intrinsic {v : Value} {s' : State} (hi : s.MeansIntrinsic r name)
    (h : (callValue r name line (pure [])).Gives s v s') : IdentCase r name line s v s'
  | constant {symbol : Symbol} {depth : Nat} {l : Literal} (hi : ¬ s.MeansIntrinsic r name)
    (hr : s.scopes.resolve name = some (symbol,depth)) (hc : symbol.cls = .constant)
    (hl : symbol.value = some l) :
    IdentCase r name line s ⟨[.const l],symbol.type⟩ (s.touch (symbol,depth) line)
  | stored {symbol : Symbol} {depth : Nat} {p : Place} {s' : State}
    (hi : ¬ s.MeansIntrinsic r name) (hr : s.scopes.resolve name = some (symbol,depth))
    (hc : symbol.hasStorage = true)
    (hp : (place r (symbol,depth) line).Gives (s.touch (symbol,depth) line) p s') :
    IdentCase r name line s ⟨[.load p],symbol.type⟩ s'
  | result {symbol : Symbol} {depth : Nat} (hi : ¬ s.MeansIntrinsic r name)
    (hr : s.scopes.resolve name = some (symbol,depth)) (hc : symbol.cls = .function)
    (hn : r.resultName = some symbol.key) :
    IdentCase r name line s
      ⟨[.load (.slot (s.frame.localVar symbol.key (.scalar r.returns)).1)],symbol.type⟩
      ((s.touch (symbol,depth) line).withLocal symbol.key (.scalar r.returns))
  | call {symbol : Symbol} {depth : Nat} {v : Value} {s' : State}
    (hi : ¬ s.MeansIntrinsic r name) (hr : s.scopes.resolve name = some (symbol,depth))
    (hc : symbol.cls = .function) (hn : r.resultName ≠ some symbol.key)
    (h : (callValue r name line (pure [])).Gives (s.touch (symbol,depth) line) v s') :
    IdentCase r name line s v s'

theorem ident_cases (h : (ident r name line).Gives s v s') : IdentCase r name line s v s' := by
  simp only [ident,gives_bind,gives_isIntrinsic] at h
  obtain ⟨b,t,⟨hb,ht⟩,h⟩ := h
  rw [ht] at h
  split at h
  · next ht => exact .intrinsic (hb.mp ht) h
  · next hf =>
    have hi : ¬ s.MeansIntrinsic r name := fun hm => hf (hb.mpr hm)
    simp only [gives_bind,gives_resolve] at h
    obtain ⟨⟨symbol,depth⟩,_,⟨hr,rfl⟩,h⟩ := h
    simp only at h
    split at h
    · next hc =>
      split at h
      · next l hl =>
        obtain ⟨rfl,rfl⟩ := gives_pure.mp h
        exact .constant hi hr hc hl
      · exact absurd h gives_fail
    · next hc =>
      obtain ⟨p,_,hp,h⟩ := gives_bind.mp h
      obtain ⟨rfl,rfl⟩ := gives_pure.mp h
      exact .stored hi hr (by simp [Symbol.hasStorage,hc]) hp
    · next hc =>
      obtain ⟨p,_,hp,h⟩ := gives_bind.mp h
      obtain ⟨rfl,rfl⟩ := gives_pure.mp h
      exact .stored hi hr (by simp [Symbol.hasStorage,hc]) hp
    · next hc =>
      split at h
      · next hn =>
        obtain ⟨slot,_,hs,h⟩ := gives_bind.mp h
        obtain ⟨rfl,rfl⟩ := gives_pure.mp h
        rcases gives_resultSlot.mp hs with ⟨hnone,_⟩ | ⟨n,hsome,rfl,rfl⟩
        · rw [hn] at hnone; cases hnone
        · obtain rfl := Option.some.inj (hn.symm.trans hsome)
          exact .result hi hr hc hn
      · next hn => exact .call hi hr hc hn h
    · exact absurd h gives_fail

inductive IndexCase (r : Routine) (name : String) (line : Line) (indices : List Expr) (s : State) :
    Value → State → Prop
  | intrinsic {v : Value} {s' : State} (hi : s.MeansIntrinsic r name)
    (h : (callValue r name line (exprs r indices)).Gives s v s') :
    IndexCase r name line indices s v s'
  | call {found : Symbol × Nat} {v : Value} {s' : State} (hi : ¬ s.MeansIntrinsic r name)
    (hr : s.scopes.resolve name = some found) (hc : found.1.isRoutine = true)
    (h : (callValue r name line (exprs r indices)).Gives (s.touch found line) v s') :
    IndexCase r name line indices s v s'
  | element {found : Symbol × Nat} {p : Place} {code : Code} {t s' : State}
    (hi : ¬ s.MeansIntrinsic r name) (hr : s.scopes.resolve name = some found)
    (hc : found.1.isRoutine = false)
    (hp : (arrayPlace r found indices.length line).Gives (s.touch found line) p t)
    (hs : (subscripts r found.1.name p line 0 found.1.type.dimensions indices).Gives t code s') :
    IndexCase r name line indices s
      ⟨code ++ [.loadElement p indices.length],found.1.type.element⟩ s'

theorem index_cases {indices : List Expr} (h : (expr r (.index line name indices)).Gives s v s') :
    IndexCase r name line indices s v s' := by
  rw [expr] at h
  simp only [gives_bind,gives_isIntrinsic] at h
  obtain ⟨b,t,⟨hb,ht⟩,h⟩ := h
  rw [ht] at h
  split at h
  · next ht => exact .intrinsic (hb.mp ht) h
  · next hf =>
    have hi : ¬ s.MeansIntrinsic r name := fun hm => hf (hb.mpr hm)
    simp only [gives_bind,gives_resolve] at h
    obtain ⟨found,_,⟨hr,rfl⟩,h⟩ := h
    split at h
    · next hc => exact .call hi hr hc h
    · next hc =>
      simp only [gives_bind,gives_pure] at h
      obtain ⟨p,t,hp,code,_,hs,rfl,rfl⟩ := h
      exact .element hi hr (by simpa using hc) hp hs

theorem gives_unary {op : UnaryOp} {operand : Expr} :
    (expr r (.unary line op operand)).Gives s v s' ↔
      ∃ x base, (expr r operand).Gives s x s' ∧ Typing.unary op x.type line = .ok base ∧
        v = ⟨x.code ++ [.unary op base],.scalar base⟩ := by
  rw [expr]
  simp only [gives_bind,gives_lift,gives_pure]
  grind

theorem gives_binary {op : BinaryOp} {left right : Expr} :
    (expr r (.binary line left op right)).Gives s v s' ↔
      ∃ x t y typing, (expr r left).Gives s x t ∧ (expr r right).Gives t y s' ∧
        Typing.binary r.language op x.type y.type line = .ok typing ∧
        v = ⟨x.code ++ typing.left.code ++ y.code ++ typing.right.code ++
          [.binary typing.op typing.operand],.scalar typing.result⟩ := by
  rw [expr]
  simp only [gives_bind,gives_lift,gives_pure]
  grind

theorem gives_exprs_cons {e : Expr} {rest : List Expr} {values : List Value} :
    (exprs r (e :: rest)).Gives s values s' ↔
      ∃ x t xs, (expr r e).Gives s x t ∧ (exprs r rest).Gives t xs s' ∧ values = x :: xs := by
  rw [exprs]
  simp only [gives_bind,gives_pure]
  grind

theorem gives_subscripts_cons {array : Place} {dim : Nat} {extent : Extent} {extents : List Extent}
    {index : Expr} {rest : List Expr} {code : Code} :
    (subscripts r name array line dim (extent :: extents) (index :: rest)).Gives s code s' ↔
      ∃ x t more, (expr r index).Gives s x t ∧ Typing.subscript x.type line = .ok () ∧
        outOfRange? extent index = none ∧
        (subscripts r name array line (dim + 1) extents rest).Gives t more s' ∧
        code = x.code ++ boundsCheck array dim extent ++ more := by
  rw [subscripts]
  simp only [gives_bind,gives_lift]
  constructor
  · rintro ⟨x,t,hx,_,_,⟨ht,rfl⟩,h⟩
    cases ho : outOfRange? extent index with
    | some p => simp [ho] at h
    | none =>
      simp only [ho,gives_bind,gives_pure] at h
      obtain ⟨more,_,hm,rfl,rfl⟩ := h
      exact ⟨x,_,more,hx,ht,rfl,hm,rfl⟩
  · rintro ⟨x,t,more,hx,ht,ho,hm,rfl⟩
    refine ⟨x,t,hx,(),t,⟨ht,rfl⟩,?_⟩
    rw [ho]
    simp only [gives_bind,gives_pure]
    exact ⟨more,s',hm,rfl,rfl⟩

end expressions

section declarations

variable {r : Routine} {s s' : State} {d : Declaration} {code : Code}

theorem gives_extents_fixed {n : UInt64} {rest : List Extent} {sizes : List Expr} :
    (extents r d (.fixed n :: rest) sizes).Gives s code s' ↔
      ∃ more, (extents r d rest sizes).Gives s more s' ∧
        code = .const (.integer n.toInt64) :: more := by
  rw [extents]
  simp only [gives_bind,gives_pure]
  grind

theorem gives_extents_dynamic {rest : List Extent} {size : Expr} {sizes : List Expr} :
    (extents r d (.dynamic :: rest) (size :: sizes)).Gives s code s' ↔
      ∃ x t more, (expr r size).Gives s x t ∧ Typing.subscript x.type d.line = .ok () ∧
        (extents r d rest sizes).Gives t more s' ∧ code = x.code ++ more := by
  rw [extents]
  simp only [gives_bind,gives_lift,gives_pure]
  grind

theorem gives_allocate {array : Place} :
    (allocate r d array).Gives s code s' ↔
      ∃ sizes, (extents r d d.dimensions d.extents).Gives s sizes s' ∧
        code = sizes ++ [.alloc array d.base d.dimensions.length] := by
  simp only [allocate,gives_bind,gives_pure]
  grind

theorem gives_allocateGlobal :
    (allocateGlobal r d).Gives s code s' ↔
      needsRoom d = true ∧ (allocate r d (.global (s.scopes.normalize d.name))).Gives s code s' ∨
      needsRoom d = false ∧ code = [] ∧ s' = s := by
  simp only [allocateGlobal,gives_ite,gives_bind,gives_get,gives_pure]
  grind

inductive DeclarationCase (r : Routine) (d : Declaration) (s : State) : Code → State → Prop
  | global {code : Code} {s' : State} (hr : r.depth = 0) (h : (allocateGlobal r d).Gives s code s') :
    DeclarationCase r d s code s'
  | plain {symbol : Symbol} {scopes : ScopeStack} (hr : r.depth ≠ 0)
    (hd : declare d s.scopes = (.ok symbol,scopes)) (hn : needsRoom d = false) :
    DeclarationCase r d s [] { s with scopes }
  | array {symbol : Symbol} {scopes : ScopeStack} {code : Code} {s' : State} (hr : r.depth ≠ 0)
    (hd : declare d s.scopes = (.ok symbol,scopes)) (hn : needsRoom d = true)
    (h : (allocate r d (.slot (s.frame.localVar symbol.key symbol.type).1)).Gives
      ({ s with scopes : State }.withLocal symbol.key symbol.type) code s') :
    DeclarationCase r d s code s'

theorem declaration_cases (h : (declaration r d).Gives s code s') :
    DeclarationCase r d s code s' := by
  rw [declaration,gives_ite] at h
  rcases h with ⟨hr,h⟩ | ⟨hr,h⟩
  · exact .global hr h
  · simp only [gives_bind,gives_withScopes,gives_ite,gives_localSlot,gives_pure] at h
    obtain ⟨symbol,_,⟨scopes,hd,rfl⟩,h⟩ := h
    rcases h with ⟨hn,_,_,⟨rfl,rfl⟩,h⟩ | ⟨hn,rfl,rfl⟩
    · exact .array hr hd hn h
    · exact .plain hr hd (by simpa using hn)

end declarations

section statements

variable {r : Routine} {s s' : State} {line : Line} {name : String} {code : Code}

theorem gives_condition {cond : Expr} :
    (condition r cond).Gives s code s' ↔
      ∃ x, (expr r cond).Gives s x s' ∧ Typing.condition x.type cond.line = .ok () ∧
        code = x.code := by
  simp only [condition,gives_bind,gives_lift,gives_pure]
  grind

theorem gives_labelOf {l : Label} :
    (labelOf r name line).Gives s l s' ↔
      ∃ found, s.scopes.resolve name = some found ∧ found.1.cls = .label ∧
        r.labels.lookup found.1.key = some l ∧ s' = s.touch found line := by
  simp only [labelOf,gives_bind,gives_resolve,gives_ite,gives_fail,State.touch]
  constructor
  · rintro ⟨found,_,⟨hr,rfl⟩,h⟩
    rcases h with ⟨hc,h⟩ | ⟨_,h⟩
    · split at h
      · next l' hl =>
        obtain ⟨rfl,rfl⟩ := gives_pure.mp h
        exact ⟨found,hr,hc,hl,rfl⟩
      · exact absurd h gives_fail
    · exact h.elim
  · rintro ⟨found,hr,hc,hl,rfl⟩
    refine ⟨found,_,⟨hr,rfl⟩,.inl ⟨hc,?_⟩⟩
    rw [hl]
    exact gives_pure.mpr ⟨rfl,rfl⟩

theorem gives_shareAll_cons {rest : List String} :
    (shareAll line (name :: rest)).Gives s code s' ↔
      ∃ symbol scopes, s.scopes.share name line = (.ok symbol,scopes) ∧
        (shareAll line rest).Gives { s with scopes } code s' := by
  rw [shareAll]
  simp only [gives_bind,gives_withScopes]
  grind

inductive AssignCase (r : Routine) (target : Target) (value : Expr) (line : Line) (s : State) :
    Code → State → Prop
  | result {found : Symbol × Nat} {x : Value} {c : Coercion} {t : State}
    (hr : s.scopes.resolve target.name = some found) (hc : found.1.cls = .function)
    (hi : target.indices = []) (hn : r.resultName = some found.1.key)
    (hx : (expr r value).Gives (s.touch found line) x t)
    (ht : Typing.assign (.scalar r.returns) x.type line = .ok c) :
    AssignCase r target value line s
      (x.code ++ c.code ++
        [.store (.slot (t.frame.localVar found.1.key (.scalar r.returns)).1)])
      (t.withLocal found.1.key (.scalar r.returns))
  | stored {found : Symbol × Nat} {p : Place} {x : Value} {c : Coercion} {t s' : State}
    (hr : s.scopes.resolve target.name = some found) (hc : found.1.hasStorage = true)
    (hi : target.indices = []) (hp : (place r found line).Gives (s.touch found line) p t)
    (hx : (expr r value).Gives t x s') (ht : Typing.assign found.1.type x.type line = .ok c)
    (ha : found.1.type.isArray = false) :
    AssignCase r target value line s (x.code ++ c.code ++ [.store p]) s'
  | element {found : Symbol × Nat} {p : Place} {indices : Code} {x : Value} {c : Coercion}
    {t u s' : State} (hr : s.scopes.resolve target.name = some found)
    (hc : found.1.hasStorage = true) (hi : target.indices ≠ [])
    (hp : (arrayPlace r found target.indices.length line).Gives (s.touch found line) p t)
    (hs : (subscripts r found.1.name p line 0 found.1.type.dimensions target.indices).Gives
      t indices u)
    (hx : (expr r value).Gives u x s')
    (ht : Typing.assign found.1.type.element x.type line = .ok c) :
    AssignCase r target value line s
      (indices ++ x.code ++ c.code ++ [.storeElement p target.indices.length]) s'

theorem assign_cases {target : Target} {value : Expr} (h : (assign r target value line).Gives s code s') :
    AssignCase r target value line s code s' := by
  simp only [assign,gives_bind,gives_resolve] at h
  obtain ⟨found,_,⟨hr,rfl⟩,h⟩ := h
  rcases gives_ite.mp h with ⟨⟨hc,hi,hn⟩,h⟩ | ⟨hne,h⟩
  · simp only [gives_bind,gives_coerce,gives_pure] at h
    obtain ⟨x,t,hx,_,_,⟨c,ht,rfl,rfl⟩,slot,_,hslot,rfl,rfl⟩ := h
    rcases gives_resultSlot.mp hslot with ⟨hnone,_⟩ | ⟨n,hsome,rfl,rfl⟩
    · rw [hn] at hnone; cases hnone
    · obtain rfl := Option.some.inj (hn.symm.trans hsome)
      exact .result hr hc (by simpa using hi) hn hx ht
  · rcases gives_ite.mp h with ⟨_,h⟩ | ⟨hst,h⟩
    · exact absurd h gives_fail
    · have hst' : found.1.hasStorage = true := by simpa using hst
      rcases gives_ite.mp h with ⟨hi,h⟩ | ⟨hi,h⟩
      · simp only [gives_bind,gives_coerce,gives_ite,gives_fail,gives_pure] at h
        obtain ⟨p,t,hp,x,_,hx,_,_,⟨c,ht,rfl,rfl⟩,h⟩ := h
        rcases h with ⟨_,_,_,h,_⟩ | ⟨ha,rfl,rfl⟩
        · exact h.elim
        · exact .stored hr hst' (by simpa using hi) hp hx ht (by simpa using ha)
      · simp only [gives_bind,gives_coerce,gives_pure] at h
        obtain ⟨p,t,hp,indices,u,hs,x,_,hx,_,_,⟨c,ht,rfl,rfl⟩,rfl,rfl⟩ := h
        exact .element hr hst' (by simpa using hi) hp hs hx ht

theorem gives_callStmt {args : List Expr} :
    (callStmt r name args line).Gives s code s' ↔
      ∃ p, (call r name line (exprs r args)).Gives s p s' ∧
        code = if p.2.isSome then p.1 ++ [.pop] else p.1 := by
  simp only [callStmt,gives_bind,gives_pure]
  grind

inductive RetCase (r : Routine) (line : Line) (s : State) : Option Expr → Code → State → Prop
  | nothing (hr : r.returns = .void) : RetCase r line s none [.ret false] s
  | result {name : String} (hr : r.returns ≠ .void) (hn : r.resultName = some name) :
    RetCase r line s none [.load (.slot (s.frame.localVar name (.scalar r.returns)).1),.ret true]
      (s.withLocal name (.scalar r.returns))
  | value {e : Expr} {x : Value} {c : Coercion} {s' : State} (hr : r.returns ≠ .void)
    (hx : (expr r e).Gives s x s') (ht : Typing.assign (.scalar r.returns) x.type line = .ok c) :
    RetCase r line s (some e) (x.code ++ c.code ++ [.ret true]) s'

theorem ret_cases {value : Option Expr} (h : (ret r value line).Gives s code s') :
    RetCase r line s value code s' := by
  cases value with
  | none =>
    simp only [ret,gives_ite] at h
    rcases h with ⟨hr,h⟩ | ⟨hr,h⟩
    · obtain ⟨rfl,rfl⟩ := gives_pure.mp h
      exact .nothing hr
    · rw [gives_bind] at h
      obtain ⟨slot,_,hslot,h⟩ := h
      rcases gives_resultSlot.mp hslot with ⟨_,rfl,rfl⟩ | ⟨n,hn,rfl,rfl⟩
      · exact absurd h gives_fail
      · obtain ⟨rfl,rfl⟩ := gives_pure.mp h
        exact .result hr hn
  | some e =>
    simp only [ret,gives_bind,gives_ite,gives_fail,gives_coerce,gives_pure] at h
    obtain ⟨x,t,hx,h⟩ := h
    rcases h with ⟨_,h⟩ | ⟨hr,_,_,⟨c,ht,rfl,rfl⟩,rfl,rfl⟩
    · exact h.elim
    · exact .value hr hx ht

theorem gives_printAll_cons {e : Expr} {rest : List Expr} :
    (printAll r line (e :: rest)).Gives s code s' ↔
      ∃ x t printer more, (expr r e).Gives s x t ∧ printer? x.type = some printer ∧
        (printAll r line rest).Gives t more s' ∧
        code = x.code ++ .call (.runtime printer) 1 false :: more := by
  rw [printAll]
  simp only [gives_bind]
  constructor
  · rintro ⟨x,t,hx,h⟩
    cases hp : printer? x.type with
    | none => simp [hp] at h
    | some printer =>
      simp only [hp,gives_bind,gives_pure] at h
      obtain ⟨more,_,hm,rfl,rfl⟩ := h
      exact ⟨x,t,printer,more,hx,hp,hm,rfl⟩
  · rintro ⟨x,t,printer,more,hx,hp,hm,rfl⟩
    refine ⟨x,t,hx,?_⟩
    simp only [hp,gives_bind,gives_pure]
    exact ⟨more,s',hm,rfl,rfl⟩

inductive StepCase (r : Routine) (type : Ty) (s : State) :
    Option Expr → Code × Step → State → Prop
  | one : StepCase r type s none
      ([],.constant (if type.base = .double then (Literal.integer 1).promote else .integer 1) true) s
  | constant {e : Expr} {l : Literal} {c : Coercion} (he : e.constant? = some l)
    (ht : Typing.assign type (.scalar l.base) e.line = .ok c) :
    StepCase r type s (some e)
      ([],.constant (if type.base = .double then l.promote else l) (Step.ascends l)) s
  | dynamic {e : Expr} {x : Value} {c : Coercion} {t : State} (he : e.constant? = none)
    (hx : (expr r e).Gives s x t) (ht : Typing.assign type x.type e.line = .ok c) :
    StepCase r type s (some e)
      (x.code ++ c.code ++ [.store (.slot t.frame.length)],.dynamic t.frame.length)
      { t with frame := t.frame.temp type }

theorem stepOf_cases {type : Ty} {step : Option Expr} {p : Code × Step}
    (h : (stepOf r type step).Gives s p s') : StepCase r type s step p s' := by
  cases step with
  | none =>
    obtain ⟨rfl,rfl⟩ := gives_pure.mp h
    exact .one
  | some e =>
    rw [stepOf] at h
    split at h
    · next l he =>
      simp only [gives_bind,gives_lift,gives_pure] at h
      obtain ⟨c,_,⟨ht,rfl⟩,rfl,rfl⟩ := h
      exact .constant he ht
    · next he =>
      simp only [gives_bind,gives_coerce,gives_tempSlot,gives_pure] at h
      obtain ⟨x,t,hx,_,_,⟨c,ht,rfl,rfl⟩,_,_,⟨rfl,rfl⟩,rfl,rfl⟩ := h
      exact .dynamic he hx ht

/-- The parts of a counting loop before its body, in the order in which they are put into code. -/
structure ForCase (r : Routine) (var : String) (first last : Expr) (step : Option Expr)
    (line : Line) (s : State) (head : ForHead) (s' : State) (found : Symbol × Nat) (x y : Value)
    (cx cy : Coercion) (stepCode : Code) (t u v : State) : Prop where
  resolved : s.scopes.resolve var = some found
  storage : found.1.hasStorage = true
  numeric : found.1.type.isNumeric = true
  counter : (place r found line).Gives (s.touch found line) head.counter t
  firstValue : (expr r first).Gives t x u
  firstTyping : Typing.assign found.1.type x.type first.line = .ok cx
  lastValue : (expr r last).Gives u y v
  lastTyping : Typing.assign found.1.type y.type last.line = .ok cy
  limit : head.limit = v.frame.length
  stepValue : StepCase r found.1.type { v with frame := v.frame.temp found.1.type } step
    (stepCode,head.step) s'
  base : head.base = found.1.type.base
  code : head.code = x.code ++ cx.code ++ [.store head.counter] ++
    y.code ++ cy.code ++ [.store (.slot head.limit)] ++ stepCode

theorem forHead_cases {first last : Expr} {step : Option Expr} {head : ForHead}
    (h : (forHead r name first last step line).Gives s head s') :
    ∃ found x y cx cy stepCode t u v,
      ForCase r name first last step line s head s' found x y cx cy stepCode t u v := by
  simp only [forHead,gives_bind,gives_resolve] at h
  obtain ⟨found,_,⟨hr,rfl⟩,h⟩ := h
  rcases gives_ite.mp h with ⟨_,h⟩ | ⟨hst,h⟩
  · simp at h
  · rcases gives_ite.mp h with ⟨_,h⟩ | ⟨hnum,h⟩
    · simp at h
    · simp only [gives_bind,gives_coerce,gives_tempSlot,gives_pure] at h
      obtain ⟨p,t,hp,x,u,hx,_,_,⟨cx,hcx,rfl,rfl⟩,y,v,hy,_,_,⟨cy,hcy,rfl,rfl⟩,_,_,⟨rfl,rfl⟩,
        ⟨stepCode,st⟩,_,hstep,rfl,rfl⟩ := h
      exact ⟨found,x,y,cx,cy,stepCode,t,_,_,
        { resolved := hr, storage := by simpa using hst, numeric := by simpa using hnum, counter := hp,
          firstValue := hx, firstTyping := hcx, lastValue := hy, lastTyping := hcy, limit := rfl,
          stepValue := stepOf_cases hstep, base := rfl, code := rfl }⟩

theorem gives_ifElse {cond : Expr} {yes no : List Stmt} :
    (stmt r (.ifElse line cond yes no)).Gives s code s' ↔
      ∃ test t yesCode u noCode, (condition r cond).Gives s test t ∧
        (stmts r yes).Gives
          { t with nextLabel := t.nextLabel + if no.isEmpty then 1 else 2 } yesCode u ∧
        (stmts r no).Gives u noCode s' ∧
        code = test ++
          [.branchIf false (t.nextLabel + if no.isEmpty then 0 else 1)] ++ yesCode ++
          (if no.isEmpty then []
            else [.branch t.nextLabel,.label (t.nextLabel + 1)] ++ noCode) ++
          [.label t.nextLabel] := by
  rw [stmt]
  cases no.isEmpty
  all_goals
    simp only [gives_bind,gives_freshLabel,gives_pure,if_true,Bool.false_eq_true,if_false]
    grind

theorem gives_whileDo {cond : Expr} {body : List Stmt} :
    (stmt r (.whileDo line cond body)).Gives s code s' ↔
      ∃ bodyCode t test,
        (stmts r body).Gives { s with nextLabel := s.nextLabel + 2 } bodyCode t ∧
        (condition r cond).Gives t test s' ∧
        code = [.branch (s.nextLabel + 1),.label s.nextLabel] ++ bodyCode ++
          [.label (s.nextLabel + 1)] ++ test ++ [.branchIf true s.nextLabel] := by
  rw [stmt]
  simp only [gives_bind,gives_freshLabel,gives_pure]
  grind

theorem gives_repeatUntil {cond : Expr} {body : List Stmt} :
    (stmt r (.repeatUntil line body cond)).Gives s code s' ↔
      ∃ bodyCode t test,
        (stmts r body).Gives { s with nextLabel := s.nextLabel + 1 } bodyCode t ∧
        (condition r cond).Gives t test s' ∧
        code = [.label s.nextLabel] ++ bodyCode ++ test ++ [.branchIf false s.nextLabel] := by
  rw [stmt]
  simp only [gives_bind,gives_freshLabel,gives_pure]
  grind

theorem gives_forTo {first last : Expr} {step : Option Expr} {body : List Stmt} :
    (stmt r (.forTo line name first last step body)).Gives s code s' ↔
      ∃ head t bodyCode, (forHead r name first last step line).Gives s head t ∧
        (stmts r body).Gives { t with nextLabel := t.nextLabel + 2 } bodyCode s' ∧
        code = head.loop t.nextLabel (t.nextLabel + 1) bodyCode := by
  rw [stmt]
  simp only [gives_bind,gives_freshLabel,gives_pure]
  grind

theorem gives_stmts_cons {x : Stmt} {rest : List Stmt} :
    (stmts r (x :: rest)).Gives s code s' ↔
      ∃ first t more, (recover (stmt r x)).Gives s first t ∧ (stmts r rest).Gives t more s' ∧
        code = first ++ more := by
  rw [stmts]
  simp only [gives_bind,gives_pure]
  grind

theorem gives_allocateAll_cons {d : Declaration} {rest : List Declaration} :
    (allocateAll r (d :: rest)).Gives s code s' ↔
      ∃ first t more, (recover (allocateGlobal r d)).Gives s first t ∧
        (allocateAll r rest).Gives t more s' ∧ code = first ++ more := by
  rw [allocateAll]
  simp only [gives_bind,gives_pure]
  grind

inductive EpilogueCase (r : Routine) (s : State) : Code → State → Prop
  | nothing (hr : r.returns = .void) : EpilogueCase r s [.ret false] s
  | result {name : String} (hr : r.returns ≠ .void) (hn : r.resultName = some name) :
    EpilogueCase r s [.load (.slot (s.frame.localVar name (.scalar r.returns)).1),.ret true]
      (s.withLocal name (.scalar r.returns))
  | zero (hr : r.returns ≠ .void) (hn : r.resultName = none) :
    EpilogueCase r s ((Literal.zero r.returns).toList.map .const ++ [.ret true]) s

theorem epilogue_cases (h : (epilogue r).Gives s code s') : EpilogueCase r s code s' := by
  rw [epilogue,gives_ite] at h
  rcases h with ⟨hr,h⟩ | ⟨hr,h⟩
  · obtain ⟨rfl,rfl⟩ := gives_pure.mp h
    exact .nothing hr
  · rw [gives_bind] at h
    obtain ⟨slot,_,hslot,h⟩ := h
    rcases gives_resultSlot.mp hslot with ⟨hn,rfl,rfl⟩ | ⟨n,hn,rfl,rfl⟩
    · obtain ⟨rfl,rfl⟩ := gives_pure.mp h
      exact .zero hr hn
    · obtain ⟨rfl,rfl⟩ := gives_pure.mp h
      exact .result hr hn

theorem gives_bodyCode {step : Lower Code} :
    (bodyCode r step).Gives s code s' ↔ ∃ body t, step.Gives s body t ∧
      (endsWithReturn body = true ∧ code = body ∧ s' = t ∨
        endsWithReturn body = false ∧
          ∃ more, (epilogue r).Gives t more s' ∧ code = body ++ more) := by
  simp only [bodyCode,gives_bind,gives_ite,gives_pure]
  grind

end statements

end StackCompiler.Lowering
