import Mathlib.Data.List.Forall2
import StackCompiler.Lowering.Stmt

/-! Types of the values on the operand stack.
An instruction takes values of the types that it names from the top of the stack and leaves others
there. What the places and routines are that it names is given by a context. -/
namespace StackCompiler

/-- Two extents may meet: they are equal if both are fixed. -/
def Extent.Agrees : Extent → Extent → Prop
  | .fixed m, .fixed n => m = n
  | _, _ => True

/-- A value of the second type may be passed for a parameter of the first: the base and the number
of dimensions are the same, and so are the extents that both have fixed. -/
structure Ty.Admits (param arg : Ty) : Prop where
  base : param.base = arg.base
  dimensions : List.Forall₂ Extent.Agrees param.dimensions arg.dimensions

theorem Ty.Admits.eq_of_isScalar {param arg : Ty} (h : param.Admits arg)
    (hs : param.isScalar = true) : arg = param := by
  obtain ⟨base,dimensions⟩ := param
  obtain ⟨base',dimensions'⟩ := arg
  obtain rfl : dimensions = [] := List.isEmpty_iff.mp hs
  obtain rfl : base = base' := h.base
  cases h.dimensions
  rfl

theorem Ty.eq_scalar {t : Ty} (h : t.isScalar = true) : t = .scalar t.base := by
  obtain ⟨base,dimensions⟩ := t
  obtain rfl : dimensions = [] := List.isEmpty_iff.mp h
  rfl

/-- Routines of the run-time library: the types of the parameters and of the result. -/
inductive Runtime (language : Language) : String → List Ty → Ty → Prop
  | intrinsic {i : Intrinsic} (h : i ∈ Intrinsic.table language) :
    Runtime language i.runtime (i.params.map Ty.scalar) (.scalar i.returns)
  | printer {t : Ty} {name : String} (h : Lowering.printer? t = some name) :
    Runtime language name [t] (.scalar .void)
  | newline : Runtime language "rt.newline" [] (.scalar .void)
  | stop : Runtime language "rt.stop" [] (.scalar .void)

/-- What is known while code is checked: the types that places have, the parameters and results of
the module's routines, and the stacks with which the routine may return. -/
structure Context where
  language : Language
  place : Place → Ty → Prop
  routine : String → List Ty → Ty → Prop
  returns : Bool → List Ty → Prop

def Context.call (Γ : Context) : CallTarget → List Ty → Ty → Prop
  | .routine entry => Γ.routine entry
  | .runtime name => Runtime Γ.language name

/-- The instruction turns one stack into another. The top of a stack is its head; branches and labels
stand where the stack is empty. -/
inductive Instr.Types (Γ : Context) : Instr → List Ty → List Ty → Prop
  | const (l : Literal) (st : List Ty) : Types Γ (.const l) st (.scalar l.base :: st)
  | load {p : Place} {t : Ty} (h : Γ.place p t) (st : List Ty) : Types Γ (.load p) st (t :: st)
  | store {p : Place} {t : Ty} (h : Γ.place p t) (hs : t.isScalar = true) (st : List Ty) :
    Types Γ (.store p) (t :: st) st
  | loadElement {p : Place} {t : Ty} (h : Γ.place p t) (st : List Ty) :
    Types Γ (.loadElement p t.rank) (.replicate t.rank (.scalar .integer) ++ st) (t.element :: st)
  | storeElement {p : Place} {t : Ty} (h : Γ.place p t) (st : List Ty) :
    Types Γ (.storeElement p t.rank)
      (t.element :: (.replicate t.rank (.scalar .integer) ++ st)) st
  | checkBounds {p : Place} {t : Ty} {dim : Nat} (h : Γ.place p t) (hd : dim < t.rank)
    (st : List Ty) : Types Γ (.checkBounds p dim) (.scalar .integer :: st) (.scalar .integer :: st)
  | alloc {p : Place} {t : Ty} (h : Γ.place p t) (st : List Ty) :
    Types Γ (.alloc p t.base t.rank) (.replicate t.rank (.scalar .integer) ++ st) st
  | binary (op : BinaryOp) (t : BaseType) (st : List Ty) :
    Types Γ (.binary op t) (.scalar t :: .scalar t :: st) (.scalar (op.result t) :: st)
  | unary (op : UnaryOp) (t : BaseType) (st : List Ty) :
    Types Γ (.unary op t) (.scalar t :: st) (.scalar t :: st)
  | convert (st : List Ty) : Types Γ .convert (.scalar .integer :: st) (.scalar .double :: st)
  | call {target : CallTarget} {params args : List Ty} {t : Ty} (h : Γ.call target params t)
    (ha : List.Forall₂ Ty.Admits params args) (st : List Ty) :
    Types Γ (.call target params.length !t.isVoid) (args.reverse ++ st)
      (if t.isVoid then st else t :: st)
  | dup (t : Ty) (st : List Ty) : Types Γ .dup (t :: st) (t :: t :: st)
  | pop (t : Ty) (st : List Ty) : Types Γ .pop (t :: st) st
  | label (l : Label) : Types Γ (.label l) [] []
  | branch (l : Label) : Types Γ (.branch l) [] []
  | branchIf (flag : Bool) (l : Label) : Types Γ (.branchIf flag l) [.scalar .boolean] []
  | ret {value : Bool} {st : List Ty} (h : Γ.returns value st) : Types Γ (.ret value) st []

/-- The context knows the place that a typed instruction names. -/
theorem Instr.Types.place {Γ : Context} {i : Instr} {st st' : List Ty} (h : i.Types Γ st st')
    {p : Place} (hp : i.place? = some p) : ∃ t, Γ.place p t := by
  cases h <;> cases hp <;> exact ⟨_,‹_›⟩

theorem Instr.Types.callee {Γ : Context} {target : CallTarget} {argc : Nat} {returns : Bool}
    {st st' : List Ty} (h : Instr.Types Γ (.call target argc returns) st st') :
    ∃ params t, Γ.call target params t ∧ argc = params.length ∧ returns = !t.isVoid := by
  cases h with
  | call hc => exact ⟨_,_,hc,rfl,rfl⟩

namespace Code

/-- The instructions, one after another, turn one stack into another. -/
inductive Types (Γ : Context) : Code → List Ty → List Ty → Prop
  | nil (st : List Ty) : Types Γ [] st st
  | cons {i : Instr} {code : Code} {st st₁ st₂ : List Ty} (h : i.Types Γ st st₁)
    (hc : Types Γ code st₁ st₂) : Types Γ (i :: code) st st₂

namespace Types

variable {Γ : Context} {a b : Code} {st st₁ st₂ : List Ty}

theorem one {i : Instr} (h : i.Types Γ st st₁) : Types Γ [i] st st₁ := .cons h (.nil st₁)

theorem append (ha : Types Γ a st st₁) (hb : Types Γ b st₁ st₂) : Types Γ (a ++ b) st st₂ := by
  induction ha with
  | nil => exact hb
  | cons h _ ih => exact .cons h (ih hb)

theorem snoc {i : Instr} (ha : Types Γ a st st₁) (hi : i.Types Γ st₁ st₂) :
    Types Γ (a ++ [i]) st st₂ :=
  ha.append (.one hi)

/-- Every instruction meets a stack that it can be applied to. -/
theorem of_mem (h : Types Γ a st st₁) {i : Instr} (hi : i ∈ a) : ∃ st st₁, i.Types Γ st st₁ := by
  induction h with
  | nil => cases hi
  | cons h _ ih =>
    rcases List.mem_cons.mp hi with rfl | hi
    · exact ⟨_,_,h⟩
    · exact ih hi

theorem exists_before (h : Types Γ a st st₁) :
    ∃ before : Nat → List Ty, before 0 = st ∧
      ∀ (pc : Nat) (i : Instr), a[pc]? = some i → i.Types Γ (before pc) (before (pc + 1)) := by
  induction h with
  | nil st => exact ⟨fun _ => st,rfl,fun pc i hi => by simp at hi⟩
  | @cons i code st st₁ st₂ h _ ih =>
    obtain ⟨before,hstart,hnext⟩ := ih
    refine ⟨fun pc => if pc = 0 then st else before (pc - 1),rfl,fun pc j hj => ?_⟩
    cases pc with
    | zero =>
      obtain rfl : i = j := by simpa using hj
      simpa [hstart] using h
    | succ pc => exact hnext pc j (by simpa using hj)

end Types
end Code

/-- The code leaves one value of the type on whatever stack it finds. -/
def Context.Pushes (Γ : Context) (code : Code) (t : Ty) : Prop :=
  ∀ st, code.Types Γ st (t :: st)

namespace Typing

theorem agrees_of_extentClash {i : Nat} {ts vs : List Extent} (h : extentClash i ts vs = none)
    (hlen : ts.length = vs.length) : List.Forall₂ Extent.Agrees ts vs := by
  induction ts generalizing i vs with
  | nil =>
    obtain rfl := List.length_eq_zero_iff.mp hlen.symm
    exact .nil
  | cons t ts ih => cases vs with
    | nil => cases hlen
    | cons v vs =>
      have hlen' : ts.length = vs.length := by simpa using hlen
      cases t with
      | dynamic => exact .cons trivial (ih h hlen')
      | fixed m => cases v with
        | dynamic => exact .cons trivial (ih h hlen')
        | fixed n =>
          rw [extentClash] at h
          split at h
          · next he => exact .cons he (ih h hlen')
          · cases h

/-- After its coercion a value has a type that the target admits. -/
theorem types_assign {target value : Ty} {line : Line} {c : Coercion}
    (h : assign target value line = .ok c) :
    ∃ t, target.Admits t ∧ ∀ Γ st, c.code.Types Γ (value :: st) (t :: st) := by
  unfold assign at h
  simp only at h
  split at h
  · cases h
  · split at h
    · split at h
      · cases h
      · next hrank =>
        split at h
        · cases h
        · next hclash =>
          split at h
          · next hbase =>
            cases h
            have hrank' : target.rank = value.rank := by simpa using hrank
            exact ⟨value,⟨hbase,agrees_of_extentClash hclash hrank'⟩,fun Γ st => .nil _⟩
          · cases h
    · split at h
      · next hscalar =>
        obtain ⟨ht,hv⟩ : target.isScalar = true ∧ value.isScalar = true := by simpa using hscalar
        split at h
        · next hbase =>
          cases h
          refine ⟨value,⟨hbase,?_⟩,fun Γ st => .nil _⟩
          rw [List.isEmpty_iff.mp ht,List.isEmpty_iff.mp hv]
          exact .nil
        · split at h
          · next hbases =>
            cases h
            obtain ⟨hd,hi⟩ : target.base = .double ∧ value.base = .integer := by simpa using hbases
            refine ⟨.scalar .double,⟨hd,?_⟩,fun Γ st => ?_⟩
            · rw [List.isEmpty_iff.mp ht]
              exact .nil
            · rw [Ty.eq_scalar hv,hi]
              exact .one (.convert st)
          · cases h
      · cases h

theorem types_assign_scalar {target value : Ty} {line : Line} {c : Coercion}
    (h : assign target value line = .ok c) (hs : target.isScalar = true) (Γ : Context)
    (st : List Ty) : c.code.Types Γ (value :: st) (target :: st) := by
  obtain ⟨t,ht,hc⟩ := types_assign h
  rw [← ht.eq_of_isScalar hs]
  exact hc Γ st

/-- A value for a scalar has its type, or is an integer that becomes a double. -/
theorem assign_scalar_cases {target value : Ty} {line : Line} {c : Coercion}
    (h : assign target value line = .ok c) (hs : target.isScalar = true) :
    c = .keep ∧ value = target ∨
      c = .toDouble ∧ value = .scalar .integer ∧ target = .scalar .double := by
  have hc := types_assign_scalar h hs
    ⟨.comal,fun _ _ => True,fun _ _ _ => True,fun _ _ => True⟩ []
  cases c with
  | keep =>
    cases hc
    exact .inl ⟨rfl,rfl⟩
  | toDouble =>
    cases hc with
    | cons hi hrest =>
      cases hrest
      cases hi
      exact .inr ⟨rfl,rfl,rfl⟩

theorem eq_of_expect {base : BaseType} {t : Ty} {line : Line} (h : expect base t line = .ok ()) :
    t = .scalar base := by
  unfold expect at h
  split at h
  · next ht => exact ht
  · cases h

theorem eq_of_unary {op : UnaryOp} {operand : Ty} {line : Line} {base : BaseType}
    (h : unary op operand line = .ok base) : operand = .scalar base := by
  have hscalar : operand.isScalar = true ∧ base = operand.base := by
    unfold unary at h
    cases op <;> grind [Ty.isNumeric]
  rw [hscalar.2]
  exact Ty.eq_scalar hscalar.1

/-- A base type is the operand type, or an integer where that is double. -/
def Meets (source operand : BaseType) : Prop :=
  source = operand ∨ source = .integer ∧ operand = .double

theorem meets_of_commonNumeric {left right n : BaseType} (h : commonNumeric left right = some n) :
    Meets left n ∧ Meets right n ∧ Meets left .double ∧ Meets right .double := by
  unfold commonNumeric at h
  cases left <;> cases right <;> cases h <;> simp [Meets]

/-- The operands of a selected operator meet in its operand type. -/
theorem meets_of_select {language : Language} {op : BinaryOp} {left right : BaseType}
    {p : BinaryOp × BaseType} (h : select language op left right = some p) :
    Meets left p.2 ∧ Meets right p.2 := by
  have hnumeric : ∀ f : BaseType → BinaryOp × BaseType,
      (∀ n, (f n).2 = n ∨ (f n).2 = .double) → (commonNumeric left right).map f = some p →
      Meets left p.2 ∧ Meets right p.2 := by
    intro f hf hmap
    obtain ⟨n,hn,rfl⟩ := Option.map_eq_some_iff.mp hmap
    obtain ⟨hl,hr,hl',hr'⟩ := meets_of_commonNumeric hn
    rcases hf n with he | he
    · rw [he]
      exact ⟨hl,hr⟩
    · rw [he]
      exact ⟨hl',hr'⟩
  have hboth : ∀ b : BaseType, (decide (left = b) && decide (right = b)) = true → p.2 = b →
      Meets left p.2 ∧ Meets right p.2 := by
    rintro b hb rfl
    obtain ⟨hl,hr⟩ : left = p.2 ∧ right = p.2 := by simpa using hb
    exact ⟨.inl hl,.inl hr⟩
  unfold select at h
  cases op <;> grind

theorem types_promotion {source operand : BaseType} (h : Meets source operand) (Γ : Context)
    (st : List Ty) :
    (promotion source operand).code.Types Γ (.scalar source :: st) (.scalar operand :: st) := by
  rcases h with rfl | ⟨rfl,rfl⟩
  · have hkeep : promotion source source = .keep := by cases source <;> rfl
    rw [hkeep]
    exact .nil _
  · exact .one (.convert st)

/-- A binary operation works on two scalars, which its coercions bring to the operand type. -/
theorem types_binary {language : Language} {op : BinaryOp} {left right : Ty} {line : Line}
    {typing : BinaryTyping} (h : binary language op left right line = .ok typing) :
    typing.result = typing.op.result typing.operand ∧ ∀ Γ st,
      typing.left.code.Types Γ (left :: st) (.scalar typing.operand :: st) ∧
      typing.right.code.Types Γ (right :: st) (.scalar typing.operand :: st) := by
  unfold binary at h
  simp only at h
  split at h
  · cases h
  · next op' operand hselected =>
    cases h
    split at hselected
    · cases hselected
    · next harray =>
      obtain ⟨hl,hr⟩ : left.isScalar = true ∧ right.isScalar = true := by
        simpa [Ty.isArray] using harray
      obtain ⟨hleft,hright⟩ := meets_of_select hselected
      refine ⟨rfl,fun Γ st => ⟨?_,?_⟩⟩
      · rw [Ty.eq_scalar hl]
        exact types_promotion hleft Γ st
      · rw [Ty.eq_scalar hr]
        exact types_promotion hright Γ st

end Typing
end StackCompiler
