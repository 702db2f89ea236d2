import StackCompiler.Proofs.AlikeScopes
import StackCompiler.Proofs.Relabelling

/-! Two bodies that are put into code side by side.
The names of the second body are spelled anew, with the same keys, and its labels have numbers that are
higher by a constant. Taken up in scopes that are alike, the two make the same diagnostics up to
spelling; if their frames are the same at first, they stay the same and the code differs in the numbers
of labels only. -/
namespace StackCompiler.Lowering

/-- How the second of two programs differs: how its names are spelled, and by how much the numbers of
its labels are higher. -/
structure Pairing where
  rule : Bool
  spell : String → String
  shift : Nat
  keeps : ∀ name, normalize rule (spell name) = normalize rule name

namespace Pairing

variable (c : Pairing)

def number (l : Label) : Label := l + c.shift

theorem upper_spell (name : String) : Text.upper (c.spell name) = Text.upper name := by
  have h := c.keeps name
  unfold normalize at h
  split at h
  · rw [h]
  · exact h

/-- Functions of the language are found under every spelling. -/
theorem find?_spell (language : Language) (name : String) :
    Intrinsic.find? language (c.spell name) = Intrinsic.find? language name := by
  rw [Intrinsic.find?,Intrinsic.find?,c.upper_spell]

end Pairing

def Routine.relabel (f : Label → Label) (r : Routine) : Routine :=
  { r with labels := r.labels.map (Prod.map id f) }

theorem lookup_relabel (f : Label → Label) (labels : List (String × Label)) (key : String) :
    (labels.map (Prod.map id f)).lookup key = (labels.lookup key).map f := by
  induction labels with
  | nil => rfl
  | cons x rest ih =>
    rw [List.map_cons,List.lookup_cons,List.lookup_cons,ih]
    simp only [Prod.map_fst,id_eq,Prod.map_snd]
    split <;> rfl

/-- States of two bodies. The frames are the same if `exact` holds. -/
structure State.Twin (c : Pairing) (exact : Prop) (s t : State) : Prop where
  scopes : s.scopes.Alike c.rule t.scopes
  frame : exact → t.frame = s.frame
  nextLabel : t.nextLabel = c.number s.nextLabel
  errors : t.errors.map Diagnostic.gist = s.errors.map Diagnostic.gist

/-- Code that differs in the numbers of labels only, where the frames are the same. -/
def SameCode (c : Pairing) (exact : Prop) (x y : Code) : Prop := exact → y = Code.relabel c.number x

structure SameValue (c : Pairing) (exact : Prop) (v w : Value) : Prop where
  type : w.type = v.type
  code : SameCode c exact v.code w.code

def SameWhere {α : Type} (exact : Prop) (x y : α) : Prop := exact → y = x

@[simp] theorem relabel_coercion (f : Label → Label) (coercion : Coercion) :
    Code.relabel f coercion.code = coercion.code := by
  cases coercion <;> rfl

namespace Lower

/-- Two steps from states of two bodies to states of two bodies: both succeed, with related results, or
both fail, with diagnostics of the same kind and line. -/
def Twins (c : Pairing) (exact : Prop) {α β : Type} (R : α → β → Prop) (x : Lower α) (y : Lower β) :
    Prop :=
  ∀ s t, s.Twin c exact t → Agree R (x.run s).1 (y.run t).1 ∧ (x.run s).2.Twin c exact (y.run t).2

section twins

variable {c : Pairing} {exact : Prop} {α β α' β' : Type} {R : α → β → Prop} {S : α' → β' → Prop}
  {line : Line}

theorem twins_pure {a : α} {b : β} (h : R a b) : Twins c exact R (pure a) (pure b) :=
  fun _ _ hst => ⟨.ok h,hst⟩

theorem twins_fail {cause cause' : Cause} (h : cause'.ctorIdx = cause.ctorIdx) :
    Twins c exact R (fail line cause) (fail line cause') :=
  fun _ _ hst => ⟨.error (Prod.ext rfl h),hst⟩

theorem twins_lift {e : Except Diagnostic α} {e' : Except Diagnostic β} (h : Agree R e e') :
    Twins c exact R (lift e) (lift e') := by
  cases h with
  | ok h => exact twins_pure h
  | error h => exact fun _ _ hst => ⟨.error h,hst⟩

theorem twins_get : Twins c exact (State.Twin c exact) get get := fun _ _ hst => ⟨.ok hst,hst⟩

theorem twins_bind {x : Lower α} {y : Lower β} {f : α → Lower α'} {g : β → Lower β'}
    (hx : Twins c exact R x y) (hf : ∀ a b, R a b → Twins c exact S (f a) (g b)) :
    Twins c exact S (x >>= f) (y >>= g) := by
  intro s t hst
  obtain ⟨hagree,hstate⟩ := hx s t hst
  rw [run_bind,run_bind]
  rcases hxs : x.run s with ⟨d | a,s'⟩ <;> rcases hyt : y.run t with ⟨e | b,t'⟩ <;>
    rw [hxs,hyt] at hagree hstate <;> cases hagree
  · next h => exact ⟨.error h,hstate⟩
  · next h => exact hf a b h s' t' hstate

theorem twins_ite {p : Prop} [Decidable p] {x x' : Lower α} {y y' : Lower β}
    (h : p → Twins c exact R x y) (h' : ¬ p → Twins c exact R x' y') :
    Twins c exact R (if p then x else x') (if p then y else y') := by
  by_cases hp : p
  · rw [if_pos hp,if_pos hp]
    exact h hp
  · rw [if_neg hp,if_neg hp]
    exact h' hp

theorem twins_fail_bind {cause cause' : Cause} {f : α' → Lower α} {g : β' → Lower β}
    (h : cause'.ctorIdx = cause.ctorIdx) :
    Twins c exact R (fail line cause >>= f) (fail line cause' >>= g) :=
  fun _ _ hst => ⟨.error (Prod.ext rfl h),hst⟩

theorem twins_freshLabel : Twins c exact (fun l m => m = c.number l) freshLabel freshLabel := by
  intro s t hst
  refine ⟨.ok hst.nextLabel,hst.scopes,hst.frame,?_,hst.errors⟩
  change t.nextLabel + 1 = c.number (s.nextLabel + 1)
  rw [hst.nextLabel,Pairing.number,Pairing.number,Nat.add_right_comm]

theorem twins_localSlot (name : String) (type : Ty) :
    Twins c exact (SameWhere exact) (localSlot name type) (localSlot name type) := by
  intro s t hst
  refine ⟨.ok fun h => ?_,hst.scopes,fun h => ?_,hst.nextLabel,hst.errors⟩
  · change (t.frame.localVar name type).1 = (s.frame.localVar name type).1
    rw [hst.frame h]
  · change (t.frame.localVar name type).2 = (s.frame.localVar name type).2
    rw [hst.frame h]

theorem twins_tempSlot (type : Ty) :
    Twins c exact (SameWhere exact) (tempSlot type) (tempSlot type) := by
  intro s t hst
  refine ⟨.ok fun h => ?_,hst.scopes,fun h => ?_,hst.nextLabel,hst.errors⟩
  · change t.frame.length = s.frame.length
    rw [hst.frame h]
  · change t.frame.temp type = s.frame.temp type
    rw [hst.frame h]

theorem twins_withScopes {step : ScopeStack → Except Diagnostic α × ScopeStack}
    {step' : ScopeStack → Except Diagnostic β × ScopeStack}
    (h : ∀ s t, s.Alike c.rule t → AgreeIn R (ScopeStack.Alike c.rule) (step s) (step' t)) :
    Twins c exact R (withScopes step) (withScopes step') := by
  intro s t hst
  have hagree := h _ _ hst.scopes
  rw [run_withScopes,run_withScopes]
  exact ⟨hagree.result,hagree.state,hst.frame,hst.nextLabel,hst.errors⟩

theorem twins_resolve (name : String) :
    Twins c exact SameFound (resolve name line) (resolve (c.spell name) line) := by
  apply twins_withScopes
  intro s t hst
  rcases found_cases (hst.resolve (c.keeps name)) with ⟨hx,hy⟩ | ⟨a,b,hx,hy,hab⟩
  · rw [hx,hy]
    exact ⟨.error rfl,hst⟩
  · rw [hx,hy]
    exact ⟨.ok hab,hst.touch _ _ _ _⟩

theorem twins_recover {x y : Lower Code} (h : Twins c exact (SameCode c exact) x y) :
    Twins c exact (SameCode c exact) (recover x) (recover y) := by
  intro s t hst
  obtain ⟨hagree,hstate⟩ := h s t hst
  rw [run_recover,run_recover]
  rcases hxs : x.run s with ⟨d | a,s'⟩ <;> rcases hyt : y.run t with ⟨e | b,t'⟩ <;>
    rw [hxs,hyt] at hagree hstate <;> cases hagree
  · next hgist =>
    simp only [Diagnostic.isFatal_of_gist hgist]
    split
    · exact ⟨.error hgist,hstate⟩
    · refine ⟨.ok fun _ => rfl,hstate.scopes,hstate.frame,hstate.nextLabel,?_⟩
      rw [List.map_append,List.map_append,hstate.errors]
      simp only [List.map_cons,List.map_nil,hgist]
  · next h => exact ⟨.ok h,hstate⟩

end twins
end Lower

open Lower

/-- The arguments of a call are checked without regard to spelling. -/
theorem agree_call (x : Symbol) (name : String) (line line' : Line) (args : List Ty) :
    Agree Eq (Typing.call x args line) (Typing.call { x with name, line := line' } args line) := by
  have harguments : ∀ (i : Nat) (params args : List Ty), Agree Eq
      (Typing.arguments x line i params args)
      (Typing.arguments { x with name, line := line' } line i params args) := by
    intro i params args
    fun_induction Typing.arguments x line i params args with
    | case1 i param params arg args e he =>
      rw [Typing.arguments,he]
      exact .error rfl
    | case2 i param params arg args coercion he ih =>
      rw [Typing.arguments,he]
      exact ih.map fun a b hab => by rw [hab]
    | case3 i params args h =>
      rw [Typing.arguments]
      · exact .ok rfl
      · exact h
  unfold Typing.call
  apply Agree.ite
  · exact .error rfl
  · apply Agree.ite
    · exact .error rfl
    · exact harguments _ _ _

section expressions

variable {c : Pairing} {exact : Prop} {r : Routine} {line : Line}

theorem twins_place (found : Symbol × Nat) (name : String) (line' : Line) :
    Twins c exact (SameWhere exact) (place r found line)
      (place (r.relabel c.number) ({ found.1 with name, line := line' },found.2) line) := by
  unfold place
  apply twins_ite
  · intro _
    exact twins_pure fun _ => rfl
  · intro _
    apply twins_ite
    · intro _
      apply twins_bind (twins_localSlot _ _)
      intro n m hnm
      exact twins_pure fun h => by rw [hnm h]
    · intro _
      exact twins_fail rfl

theorem twins_resultSlot : Twins c exact (fun x y => y.isSome = x.isSome ∧ SameWhere exact x y)
    (resultSlot r) (resultSlot (r.relabel c.number)) := by
  unfold resultSlot Routine.relabel
  cases r.resultName with
  | none => exact twins_pure ⟨rfl,fun _ => rfl⟩
  | some name =>
    apply twins_bind (twins_localSlot _ _)
    intro n m hnm
    exact twins_pure ⟨rfl,fun h => by rw [hnm h]⟩

theorem twins_coerce (target value : Ty) :
    Twins c exact (SameCode c exact) (coerce target value line) (coerce target value line) := by
  apply twins_bind (twins_lift (Agree.refl _))
  intro a b hab
  exact twins_pure fun _ => by rw [hab,relabel_coercion]

theorem twins_isIntrinsic (name : String) :
    Twins c exact Eq (isIntrinsic r name) (isIntrinsic (r.relabel c.number) (c.spell name)) := by
  apply twins_bind twins_get
  intro s t hst
  apply twins_pure
  have hresolve : (t.scopes.resolve (c.spell name)).isNone = (s.scopes.resolve name).isNone := by
    rcases found_cases (hst.scopes.resolve (c.keeps name)) with ⟨hx,hy⟩ | ⟨a,b,hx,hy,_⟩ <;> rw [hx,hy]
    rfl
  rw [hresolve,c.find?_spell]
  rfl

theorem twins_callee (name : String) :
    Twins c exact (fun a b => ∃ name line, b = (a.1,{ a.2 with name, line })) (callee r name line)
      (callee (r.relabel c.number) (c.spell name) line) := by
  intro s t hst
  rw [run_callee,run_callee]
  rcases found_cases (hst.scopes.resolveRoutine (c.keeps name)) with ⟨hx,hy⟩ | ⟨a,b,hx,hy,hab⟩
  · have hintrinsic : Intrinsic.find? (r.relabel c.number).language (c.spell name) =
        Intrinsic.find? r.language name := c.find?_spell _ _
    rw [hx,hy,hintrinsic]
    cases Intrinsic.find? r.language name with
    | some intrinsic => exact ⟨.ok ⟨_,_,rfl⟩,hst⟩
    | none => exact ⟨.error rfl,hst⟩
  · obtain ⟨spelled,line',rfl⟩ := hab
    rw [hx,hy]
    refine ⟨?_,hst.scopes.touch _ _ _ _,hst.frame,hst.nextLabel,hst.errors⟩
    apply Agree.ite
    · exact .ok ⟨_,_,rfl⟩
    · exact .error rfl

theorem sameCode_argumentCode {args args' : List Value}
    (h : List.Forall₂ (SameValue c exact) args args') (coercions : List Coercion) :
    SameCode c exact (argumentCode args coercions) (argumentCode args' coercions) := by
  intro he
  induction h generalizing coercions with
  | nil => rfl
  | @cons v w rest rest' hv _ ih =>
    cases coercions with
    | nil => rfl
    | cons coercion coercions =>
      have hrest := ih coercions
      unfold argumentCode at hrest ⊢
      simp only [List.zip_cons_cons,List.map_cons,List.flatten_cons,Code.relabel_append,
        relabel_coercion,hv.code he,hrest]

theorem twins_call (name : String) {args args' : Lower (List Value)}
    (h : Twins c exact (List.Forall₂ (SameValue c exact)) args args') :
    Twins c exact (fun a b => b.2 = a.2 ∧ SameCode c exact a.1 b.1) (call r name line args)
      (call (r.relabel c.number) (c.spell name) line args') := by
  apply twins_bind (twins_callee name)
  rintro ⟨target,signature⟩ _ ⟨spelled,line',rfl⟩
  apply twins_bind h
  intro values values' hvalues
  have htypes : values'.map Value.type = values.map Value.type := by
    induction hvalues with
    | nil => rfl
    | cons hv _ ih => rw [List.map_cons,List.map_cons,hv.type,ih]
  rw [htypes]
  apply twins_bind (twins_lift (agree_call signature spelled line line' _))
  rintro coercions _ rfl
  refine twins_pure ⟨rfl,fun he => ?_⟩
  simp only [Code.relabel_append,sameCode_argumentCode hvalues coercions he,hvalues.length_eq]
  rfl

theorem twins_callValue (name : String) {args args' : Lower (List Value)}
    (h : Twins c exact (List.Forall₂ (SameValue c exact)) args args') :
    Twins c exact (SameValue c exact) (callValue r name line args)
      (callValue (r.relabel c.number) (c.spell name) line args') := by
  apply twins_bind (twins_call name h)
  rintro ⟨code,type⟩ ⟨code',type'⟩ ⟨htype,hcode⟩
  obtain rfl : type' = type := htype
  cases type' with
  | some type => exact twins_pure ⟨rfl,hcode⟩
  | none => exact twins_fail rfl

theorem twins_ident (name : String) : Twins c exact (SameValue c exact) (ident r name line)
    (ident (r.relabel c.number) (c.spell name) line) := by
  apply twins_bind (twins_isIntrinsic name)
  rintro intrinsic _ rfl
  apply twins_ite
  · intro _
    exact twins_callValue name (twins_pure .nil)
  · intro _
    apply twins_bind (twins_resolve name)
    rintro ⟨symbol,depth⟩ _ ⟨spelled,line',rfl⟩
    simp only
    have hplace : Twins c exact (SameValue c exact)
        (do let p ← place r (symbol,depth) line; pure ⟨[.load p],symbol.type⟩)
        (do
          let p ← place (r.relabel c.number) ({ symbol with name := spelled, line := line' },depth) line
          pure ⟨[.load p],symbol.type⟩) := by
      apply twins_bind (twins_place (symbol,depth) spelled line')
      intro p q hpq
      exact twins_pure ⟨rfl,fun he => by rw [hpq he]; rfl⟩
    rcases symbol.cls with _ | _ | _ | _ | _
    · exact hplace
    · cases symbol.value with
      | some value => exact twins_pure ⟨rfl,fun _ => rfl⟩
      | none => exact twins_fail rfl
    · apply twins_ite
      · intro _
        apply twins_bind twins_resultSlot
        rintro n m ⟨_,hnm⟩
        exact twins_pure ⟨rfl,fun he => by rw [hnm he]; cases n <;> rfl⟩
      · intro _
        exact twins_callValue name (twins_pure .nil)
    · exact hplace
    · exact twins_fail rfl

theorem twins_arrayPlace (found : Symbol × Nat) (name : String) (line' : Line) (n : Nat) :
    Twins c exact (SameWhere exact) (arrayPlace r found n line)
      (arrayPlace (r.relabel c.number) ({ found.1 with name, line := line' },found.2) n line) := by
  unfold arrayPlace
  simp only
  apply twins_ite
  · intro _
    exact twins_fail_bind rfl
  · intro _
    apply twins_ite
    · intro _
      exact twins_fail_bind rfl
    · intro _
      apply twins_ite
      · intro _
        exact twins_fail_bind rfl
      · intro _
        exact twins_place found name line'

theorem outOfRange?_respell (f : String → String) (extent : Extent) (index : Expr) :
    outOfRange? extent (index.respell f) = outOfRange? extent index := by
  unfold outOfRange?
  rw [Expr.integer?_respell]

theorem relabel_boundsCheck (f : Label → Label) (array : Place) (dim : Nat) (extent : Extent) :
    Code.relabel f (boundsCheck array dim extent) = boundsCheck array dim extent := by
  cases extent <;> rfl

end expressions

mutual

theorem twins_expr {c : Pairing} {exact : Prop} (r : Routine) : ∀ e : Expr,
    Twins c exact (SameValue c exact) (expr r e) (expr (r.relabel c.number) (e.respell c.spell))
  | .literal _ _ => by
    unfold Expr.respell expr
    exact twins_pure ⟨rfl,fun _ => rfl⟩
  | .ident line name => by
    unfold Expr.respell expr
    exact twins_ident name
  | .index line name indices => by
    have hargs : Twins c exact (List.Forall₂ (SameValue c exact)) _ _ := twins_exprs r indices
    unfold Expr.respell expr
    apply twins_bind (twins_isIntrinsic name)
    rintro intrinsic _ rfl
    apply twins_ite
    · intro _
      exact twins_callValue name hargs
    · intro _
      apply twins_bind (twins_resolve name)
      rintro found _ ⟨spelled,line',rfl⟩
      apply twins_ite
      · intro _
        exact twins_callValue name hargs
      · intro _
        rw [Expr.length_respellAll]
        apply twins_bind (twins_arrayPlace found spelled line' _)
        intro array array' harray
        apply twins_bind (twins_subscripts r _ _ harray line 0 _ indices)
        intro code code' hcode
        exact twins_pure ⟨rfl,fun he => by rw [hcode he,harray he,Code.relabel_append]; rfl⟩
  | .unary line op operand => by
    unfold Expr.respell expr
    apply twins_bind (twins_expr r operand)
    intro v w hvw
    rw [hvw.type]
    apply twins_bind (twins_lift (Agree.refl _))
    rintro base _ rfl
    exact twins_pure ⟨rfl,fun he => by rw [hvw.code he,Code.relabel_append]; rfl⟩
  | .binary line left op right => by
    unfold Expr.respell expr
    apply twins_bind (twins_expr r left)
    intro x x' hx
    apply twins_bind (twins_expr r right)
    intro y y' hy
    rw [hx.type,hy.type]
    apply twins_bind (twins_lift (Agree.refl _))
    rintro typing _ rfl
    refine twins_pure ⟨rfl,fun he => ?_⟩
    simp only [hx.code he,hy.code he,Code.relabel_append,relabel_coercion]
    rfl
  | .call line name args => by
    unfold Expr.respell expr
    exact twins_callValue name (twins_exprs r args)

theorem twins_exprs {c : Pairing} {exact : Prop} (r : Routine) : ∀ es : List Expr,
    Twins c exact (List.Forall₂ (SameValue c exact)) (exprs r es)
      (exprs (r.relabel c.number) (Expr.respellAll c.spell es))
  | [] => by
    unfold Expr.respellAll exprs
    exact twins_pure .nil
  | e :: rest => by
    unfold Expr.respellAll exprs
    apply twins_bind (twins_expr r e)
    intro v w hvw
    apply twins_bind (twins_exprs r rest)
    intro vs ws hrest
    exact twins_pure (.cons hvw hrest)

theorem twins_subscripts {c : Pairing} {exact : Prop} (r : Routine) (name name' : String)
    {array array' : Place} (harray : SameWhere exact array array') (line : Line) :
    ∀ (dim : Nat) (extents : List Extent) (indices : List Expr),
    Twins c exact (SameCode c exact) (subscripts r name array line dim extents indices)
      (subscripts (r.relabel c.number) name' array' line dim extents (Expr.respellAll c.spell indices))
  | _, _, [] => by
    unfold Expr.respellAll subscripts
    exact twins_pure fun _ => rfl
  | _, [], _ :: _ => by
    unfold Expr.respellAll subscripts
    exact twins_pure fun _ => rfl
  | dim, extent :: extents, index :: rest => by
    unfold Expr.respellAll subscripts
    apply twins_bind (twins_expr r index)
    intro v w hvw
    rw [hvw.type]
    apply twins_bind (twins_lift (Agree.refl _))
    intro _ _ _
    simp only [outOfRange?_respell]
    cases outOfRange? extent index with
    | some found => exact twins_fail_bind rfl
    | none =>
      apply twins_bind (twins_subscripts r name name' harray line (dim + 1) extents rest)
      intro code code' hcode
      refine twins_pure fun he => ?_
      rw [hvw.code he,hcode he,harray he,Code.relabel_append,Code.relabel_append,relabel_boundsCheck]

end

theorem validate_respell (t : Ty) (name name' : String) :
    (∃ cause cause', t.validate name = .error cause ∧ t.validate name' = .error cause' ∧
      cause'.ctorIdx = cause.ctorIdx) ∨ t.validate name = .ok () ∧ t.validate name' = .ok () := by
  unfold Ty.validate
  split
  · exact .inr ⟨rfl,rfl⟩
  · split
    · exact .inl ⟨_,_,rfl,rfl,rfl⟩
    · split
      · exact .inl ⟨_,_,rfl,rfl,rfl⟩
      · split
        · exact .inl ⟨_,_,rfl,rfl,rfl⟩
        · split
          · exact .inl ⟨_,_,rfl,rfl,rfl⟩
          · exact .inr ⟨rfl,rfl⟩

section statements

variable {c : Pairing} {exact : Prop} {r : Routine} {line : Line}

/-- Declarations introduce symbols that differ in spelling only. -/
theorem agree_declared (d : Declaration) :
    Agree (Symbol.Respells c.rule) (declared d) (declared (d.respell c.spell)) := by
  obtain ⟨name,base,cls,dimensions,value,extents,line⟩ := d
  unfold declared
  simp only [Declaration.respell,Declaration.type,Expr.length_respellAll]
  rcases cls with _ | _ | _ | _ | _
  · apply Agree.ite
    · exact .error rfl
    · rcases validate_respell ⟨base,dimensions⟩ name (c.spell name) with
        ⟨cause,cause',h,h',hkind⟩ | ⟨h,h'⟩
      · simp only [h,h']
        exact .error (Prod.ext rfl hkind)
      · simp only [h,h']
        apply Agree.ite
        · exact .ok ⟨c.keeps name,rfl⟩
        · exact .error rfl
  · apply Agree.ite
    · exact .error rfl
    · cases value with
      | none => exact .error rfl
      | some value =>
        simp only
        rcases Typing.assign ⟨base,dimensions⟩ (.scalar value.base) line with e | coercion
        · exact .error rfl
        · cases coercion <;> exact .ok ⟨c.keeps name,rfl⟩
  · exact .error rfl
  · exact .error rfl
  · exact .error rfl

theorem agree_declare {s t : ScopeStack} (h : s.Alike c.rule t) (d : Declaration) :
    AgreeIn (fun a b => b.bare = a.bare) (ScopeStack.Alike c.rule) (declare d s)
      (declare (d.respell c.spell) t) := by
  have hdeclared : Agree (Symbol.Respells c.rule) _ _ := agree_declared d
  unfold declare
  rcases hx : declared d with e | x <;> rcases hy : declared (d.respell c.spell) with e' | y <;>
    rw [hx,hy] at hdeclared <;> cases hdeclared
  · next hgist => exact ⟨.error hgist,h⟩
  · next hxy => exact h.declare hxy

theorem twins_extents (r : Routine) (d : Declaration) :
    ∀ (dimensions : List Extent) (sizes : List Expr),
    Twins c exact (SameCode c exact) (extents r d dimensions sizes)
      (extents (r.relabel c.number) (d.respell c.spell) dimensions (Expr.respellAll c.spell sizes))
  | [], _ => twins_pure fun _ => rfl
  | .fixed _ :: rest, sizes => by
    apply twins_bind (twins_extents r d rest sizes)
    intro code code' hcode
    exact twins_pure fun he => by rw [hcode he]; rfl
  | .dynamic :: _, [] => twins_fail rfl
  | .dynamic :: rest, size :: sizes => by
    apply twins_bind (twins_expr r size)
    intro v w hvw
    rw [hvw.type]
    apply twins_bind (twins_lift (Agree.refl _))
    intro _ _ _
    apply twins_bind (twins_extents r d rest sizes)
    intro code code' hcode
    exact twins_pure fun he => by rw [hvw.code he,hcode he,Code.relabel_append]

theorem twins_allocate (d : Declaration) {array array' : Place} (h : SameWhere exact array array') :
    Twins c exact (SameCode c exact) (allocate r d array)
      (allocate (r.relabel c.number) (d.respell c.spell) array') := by
  apply twins_bind (twins_extents r d d.dimensions d.extents)
  intro code code' hcode
  exact twins_pure fun he => by rw [hcode he,h he,Code.relabel_append]; rfl

theorem twins_allocateGlobal (d : Declaration) : Twins c exact (SameCode c exact) (allocateGlobal r d)
    (allocateGlobal (r.relabel c.number) (d.respell c.spell)) := by
  unfold allocateGlobal
  apply twins_ite
  · intro _
    apply twins_bind twins_get
    intro s t hst
    apply twins_allocate
    intro _
    exact congrArg Place.global (hst.scopes.normalize (c.keeps d.name))
  · intro _
    exact twins_pure fun _ => rfl

theorem twins_declaration (d : Declaration) : Twins c exact (SameCode c exact) (declaration r d)
    (declaration (r.relabel c.number) (d.respell c.spell)) := by
  unfold declaration
  apply twins_ite
  · intro _
    exact twins_allocateGlobal d
  · intro _
    have hdeclare : Twins c exact (fun x y => y.bare = x.bare) (withScopes (declare d))
        (withScopes (declare (d.respell c.spell))) :=
      twins_withScopes fun s t hst => agree_declare hst d
    apply twins_bind hdeclare
    intro x y hxy
    obtain ⟨name,line,rfl⟩ := Symbol.eq_of_bare hxy
    apply twins_ite
    · intro _
      apply twins_bind (twins_localSlot _ _)
      intro n m hnm
      apply twins_allocate
      intro he
      rw [hnm he]
    · intro _
      exact twins_pure fun _ => rfl

theorem twins_condition (cond : Expr) : Twins c exact (SameCode c exact) (condition r cond)
    (condition (r.relabel c.number) (cond.respell c.spell)) := by
  apply twins_bind (twins_expr r cond)
  intro v w hvw
  rw [hvw.type,Expr.line_respell]
  apply twins_bind (twins_lift (Agree.refl _))
  intro _ _ _
  exact twins_pure hvw.code

theorem twins_labelOf (name : String) : Twins c exact (fun l m => m = c.number l) (labelOf r name line)
    (labelOf (r.relabel c.number) (c.spell name) line) := by
  apply twins_bind (twins_resolve name)
  rintro ⟨symbol,depth⟩ _ ⟨spelled,line',rfl⟩
  simp only
  apply twins_ite
  · intro _
    rw [Routine.relabel,lookup_relabel]
    cases r.labels.lookup symbol.key with
    | some l => exact twins_pure rfl
    | none => exact twins_fail rfl
  · intro _
    exact twins_fail rfl

theorem twins_shareAll (names : List String) :
    Twins c exact (SameCode c exact) (shareAll line names) (shareAll line (names.map c.spell)) := by
  induction names with
  | nil => exact twins_pure fun _ => rfl
  | cons name rest ih =>
    have hshare : Twins c exact (fun _ _ : Symbol => True)
        (withScopes fun scopes => scopes.share name line)
        (withScopes fun scopes => scopes.share (c.spell name) line) :=
      twins_withScopes fun s t hst => hst.share (c.keeps name) line
    exact twins_bind hshare fun _ _ _ => ih

theorem twins_assign (target : Target) (value : Expr) :
    Twins c exact (SameCode c exact) (assign r target value line)
      (assign (r.relabel c.number) (target.respell c.spell) (value.respell c.spell) line) := by
  have hempty : (target.respell c.spell).indices.isEmpty = target.indices.isEmpty :=
    Expr.isEmpty_respellAll _ _
  have hlength : (target.respell c.spell).indices.length = target.indices.length :=
    Expr.length_respellAll _ _
  apply twins_bind (twins_resolve target.name)
  rintro found _ ⟨spelled,line',rfl⟩
  rw [hempty,hlength]
  apply twins_ite
  · intro _
    apply twins_bind (twins_expr r value)
    intro v w hvw
    rw [hvw.type]
    apply twins_bind (twins_coerce _ _)
    intro coercion coercion' hcoercion
    apply twins_bind twins_resultSlot
    rintro n m ⟨_,hnm⟩
    refine twins_pure fun he => ?_
    rw [hvw.code he,hcoercion he,hnm he,Code.relabel_append,Code.relabel_append]
    cases n <;> rfl
  · intro _
    apply twins_ite
    · intro _
      exact twins_fail rfl
    · intro _
      apply twins_ite
      · intro _
        apply twins_bind (twins_place found spelled line')
        intro p q hpq
        apply twins_bind (twins_expr r value)
        intro v w hvw
        rw [hvw.type]
        apply twins_bind (twins_coerce _ _)
        intro coercion coercion' hcoercion
        apply twins_ite
        · intro _
          exact twins_fail_bind rfl
        · intro _
          refine twins_pure fun he => ?_
          rw [hvw.code he,hcoercion he,hpq he,Code.relabel_append,Code.relabel_append]
          rfl
      · intro _
        apply twins_bind (twins_arrayPlace found spelled line' _)
        intro array array' harray
        apply twins_bind (twins_subscripts r _ _ harray line 0 _ target.indices)
        intro code code' hcode
        apply twins_bind (twins_expr r value)
        intro v w hvw
        rw [hvw.type]
        apply twins_bind (twins_coerce _ _)
        intro coercion coercion' hcoercion
        refine twins_pure fun he => ?_
        rw [hcode he,hvw.code he,hcoercion he,harray he,Code.relabel_append,Code.relabel_append,
          Code.relabel_append]
        rfl

theorem twins_callStmt (name : String) (args : List Expr) :
    Twins c exact (SameCode c exact) (callStmt r name args line)
      (callStmt (r.relabel c.number) (c.spell name) (Expr.respellAll c.spell args) line) := by
  apply twins_bind (twins_call name (twins_exprs r args))
  rintro ⟨code,type⟩ ⟨code',type'⟩ ⟨htype,hcode⟩
  obtain rfl : type' = type := htype
  refine twins_pure fun he => ?_
  rw [show code' = Code.relabel c.number code from hcode he]
  split
  · rw [Code.relabel_append]
    rfl
  · rfl

theorem twins_ret (value : Option Expr) : Twins c exact (SameCode c exact) (ret r value line)
    (ret (r.relabel c.number) (value.map (Expr.respell c.spell)) line) := by
  cases value with
  | none =>
    apply twins_ite
    · intro _
      exact twins_pure fun _ => rfl
    · intro _
      apply twins_bind twins_resultSlot
      rintro n m ⟨hsome,hnm⟩
      cases n <;> cases m <;> cases hsome
      · exact twins_fail rfl
      · next n m => exact twins_pure fun he => by cases hnm he; rfl
  | some e =>
    apply twins_bind (twins_expr r e)
    intro v w hvw
    rw [hvw.type]
    apply twins_ite
    · intro _
      exact twins_fail rfl
    · intro _
      apply twins_bind (twins_coerce _ _)
      intro coercion coercion' hcoercion
      refine twins_pure fun he => ?_
      rw [hvw.code he,hcoercion he,Code.relabel_append,Code.relabel_append]
      rfl

theorem twins_printAll (r : Routine) (line : Line) : ∀ values : List Expr,
    Twins c exact (SameCode c exact) (printAll r line values)
      (printAll (r.relabel c.number) line (Expr.respellAll c.spell values))
  | [] => twins_pure fun _ => rfl
  | e :: rest => by
    apply twins_bind (twins_expr r e)
    intro v w hvw
    rw [hvw.type]
    cases printer? v.type with
    | none => exact twins_fail rfl
    | some name =>
      apply twins_bind (twins_printAll r line rest)
      intro code code' hcode
      refine twins_pure fun he => ?_
      rw [hvw.code he,hcode he,Code.relabel_append]
      rfl

/-- The step of a counting loop, with the code that computes it. -/
theorem twins_stepOf (type : Ty) (step : Option Expr) :
    Twins c exact (fun a b => SameCode c exact a.1 b.1 ∧ SameWhere exact a.2 b.2) (stepOf r type step)
      (stepOf (r.relabel c.number) type (step.map (Expr.respell c.spell))) := by
  cases step with
  | none => exact twins_pure ⟨fun _ => rfl,fun _ => rfl⟩
  | some e =>
    simp only [stepOf,Option.map_some,Expr.constant?_respell,Expr.line_respell]
    cases e.constant? with
    | some value =>
      apply twins_bind (twins_lift (Agree.refl _))
      intro _ _ _
      exact twins_pure ⟨fun _ => rfl,fun _ => rfl⟩
    | none =>
      apply twins_bind (twins_expr r e)
      intro v w hvw
      rw [hvw.type]
      apply twins_bind (twins_coerce _ _)
      intro coercion coercion' hcoercion
      apply twins_bind (twins_tempSlot type)
      intro n m hnm
      refine twins_pure ⟨fun he => ?_,fun he => by rw [hnm he]⟩
      rw [hvw.code he,hcoercion he,hnm he,Code.relabel_append,Code.relabel_append]
      rfl

structure SameHead (c : Pairing) (exact : Prop) (h k : ForHead) : Prop where
  counter : SameWhere exact h.counter k.counter
  limit : SameWhere exact h.limit k.limit
  step : SameWhere exact h.step k.step
  base : k.base = h.base
  code : SameCode c exact h.code k.code

theorem twins_forHead (var : String) (first last : Expr) (step : Option Expr) :
    Twins c exact (SameHead c exact) (forHead r var first last step line)
      (forHead (r.relabel c.number) (c.spell var) (first.respell c.spell) (last.respell c.spell)
        (step.map (Expr.respell c.spell)) line) := by
  unfold forHead
  simp only [Expr.line_respell]
  apply twins_bind (twins_resolve var)
  rintro found _ ⟨spelled,line',rfl⟩
  apply twins_ite
  · intro _
    exact twins_fail_bind rfl
  · intro _
    apply twins_ite
    · intro _
      exact twins_fail_bind rfl
    · intro _
      apply twins_bind (twins_place found spelled line')
      intro p q hpq
      apply twins_bind (twins_expr r first)
      intro x x' hx
      rw [hx.type]
      apply twins_bind (twins_coerce _ _)
      intro firstCoercion firstCoercion' hfirst
      apply twins_bind (twins_expr r last)
      intro y y' hy
      rw [hy.type]
      apply twins_bind (twins_coerce _ _)
      intro lastCoercion lastCoercion' hlast
      apply twins_bind (twins_tempSlot _)
      intro n m hnm
      apply twins_bind (twins_stepOf _ step)
      rintro ⟨stepCode,step⟩ ⟨stepCode',step'⟩ ⟨hcode,hstep⟩
      refine twins_pure ⟨hpq,hnm,hstep,rfl,fun he => ?_⟩
      simp only [hx.code he,hfirst he,hy.code he,hlast he,hpq he,hnm he,show stepCode' = _ from hcode he,
        Code.relabel_append]
      rfl

theorem SameHead.loop {h k : ForHead} (hk : SameHead c exact h k) {body body' : Code}
    (hbody : SameCode c exact body body') (again test : Label) :
    SameCode c exact (h.loop again test body) (k.loop (c.number again) (c.number test) body') := by
  intro he
  have hload : Code.relabel c.number h.step.load = h.step.load := by cases h.step <;> rfl
  have htest : Code.relabel c.number (h.step.test h.counter h.limit h.base) =
      h.step.test h.counter h.limit h.base := by cases h.step <;> rfl
  unfold ForHead.loop
  simp only [hk.counter he,hk.limit he,hk.step he,hk.base,hk.code he,hbody he,Code.relabel_append,hload,
    htest]
  rfl

end statements

mutual

theorem twins_stmt {c : Pairing} {exact : Prop} (r : Routine) : ∀ x : Stmt,
    Twins c exact (SameCode c exact) (stmt r x) (stmt (r.relabel c.number) (x.respell c.spell))
  | .declare line d => by
    unfold Stmt.respell stmt
    exact twins_declaration d
  | .share line names => by
    unfold Stmt.respell stmt
    exact twins_shareAll names
  | .assign line target value => by
    unfold Stmt.respell stmt
    exact twins_assign target value
  | .call line name args => by
    unfold Stmt.respell stmt
    exact twins_callStmt name args
  | .ifElse line cond yes no => by
    unfold Stmt.respell stmt
    simp only [Stmt.isEmpty_respellAll]
    apply twins_bind (twins_condition cond)
    intro test test' htest
    apply twins_bind twins_freshLabel
    rintro done _ rfl
    have hrest : ∀ other : Label, Twins c exact (SameCode c exact)
        (do
          let yesCode ← stmts r yes
          let noCode ← stmts r no
          pure (test ++ [.branchIf false other] ++ yesCode ++
            (if no.isEmpty = true then [] else [.branch done,.label other] ++ noCode) ++ [.label done]))
        (do
          let yesCode ← stmts (r.relabel c.number) (Stmt.respellAll c.spell yes)
          let noCode ← stmts (r.relabel c.number) (Stmt.respellAll c.spell no)
          pure (test' ++ [.branchIf false (c.number other)] ++ yesCode ++
            (if no.isEmpty = true then [] else [.branch (c.number done),.label (c.number other)] ++ noCode)
            ++ [.label (c.number done)])) := by
      intro other
      apply twins_bind (twins_stmts r yes)
      intro yesCode yesCode' hyes
      apply twins_bind (twins_stmts r no)
      intro noCode noCode' hno
      refine twins_pure fun he => ?_
      simp only [htest he,hyes he,hno he,Code.relabel_append]
      split <;> rfl
    apply twins_ite
    · intro _
      apply twins_bind (twins_pure (R := fun l m => m = c.number l) rfl)
      rintro other _ rfl
      exact hrest other
    · intro _
      apply twins_bind twins_freshLabel
      rintro other _ rfl
      exact hrest other
  | .whileDo line cond body => by
    unfold Stmt.respell stmt
    apply twins_bind twins_freshLabel
    rintro again _ rfl
    apply twins_bind twins_freshLabel
    rintro test _ rfl
    apply twins_bind (twins_stmts r body)
    intro code code' hcode
    apply twins_bind (twins_condition cond)
    intro testCode testCode' htest
    refine twins_pure fun he => ?_
    simp only [hcode he,htest he,Code.relabel_append]
    rfl
  | .repeatUntil line body cond => by
    unfold Stmt.respell stmt
    apply twins_bind twins_freshLabel
    rintro again _ rfl
    apply twins_bind (twins_stmts r body)
    intro code code' hcode
    apply twins_bind (twins_condition cond)
    intro testCode testCode' htest
    refine twins_pure fun he => ?_
    simp only [hcode he,htest he,Code.relabel_append]
    rfl
  | .forTo line var first last step body => by
    unfold Stmt.respell stmt
    apply twins_bind (twins_forHead var first last step)
    intro head head' hhead
    apply twins_bind twins_freshLabel
    rintro again _ rfl
    apply twins_bind twins_freshLabel
    rintro test _ rfl
    apply twins_bind (twins_stmts r body)
    intro code code' hcode
    exact twins_pure (hhead.loop hcode again test)
  | .label line name => by
    unfold Stmt.respell stmt
    apply twins_bind (twins_labelOf name)
    rintro l _ rfl
    exact twins_pure fun _ => rfl
  | .goto line name => by
    unfold Stmt.respell stmt
    apply twins_bind (twins_labelOf name)
    rintro l _ rfl
    exact twins_pure fun _ => rfl
  | .ret line value => by
    unfold Stmt.respell stmt
    exact twins_ret value
  | .print line values => by
    unfold Stmt.respell stmt
    exact twins_printAll r line values
  | .stop line => by
    unfold Stmt.respell stmt
    exact twins_pure fun _ => rfl

theorem twins_stmts {c : Pairing} {exact : Prop} (r : Routine) : ∀ xs : List Stmt,
    Twins c exact (SameCode c exact) (stmts r xs)
      (stmts (r.relabel c.number) (Stmt.respellAll c.spell xs))
  | [] => by
    unfold Stmt.respellAll stmts
    exact twins_pure fun _ => rfl
  | x :: rest => by
    unfold Stmt.respellAll stmts
    apply twins_bind (twins_recover (twins_stmt r x))
    intro code code' hcode
    apply twins_bind (twins_stmts r rest)
    intro more more' hmore
    exact twins_pure fun he => by rw [hcode he,hmore he,Code.relabel_append]

end

end StackCompiler.Lowering
