import Mathlib.Algebra.Group.Nat.Defs
import Mathlib.Algebra.Ring.Int.Defs
import StackCompiler.Proofs.LoweringCases

/-! The fixed extents of arrays in code and in the test of subscripts.
An extent is an unsigned number of 64 bits, and both the code that makes the array and the test of a
literal subscript take it for a signed one. Below `2 ^ 63` that is the same number. From there on it is
negative, so that no literal subscript is accepted. -/
namespace StackCompiler

theorem toInt_toInt64 (n : UInt64) :
    n.toInt64.toInt = if n.toNat < 2 ^ 63 then (n.toNat : Int) else (n.toNat : Int) - 2 ^ 64 := by
  change n.toBitVec.toInt = _
  rw [BitVec.toInt,UInt64.toNat_toBitVec]
  split <;> split <;> omega

theorem Ty.fixed_zero_not_mem_of_validate {t : Ty} {name : String} (h : t.validate name = .ok ()) :
    .fixed 0 ∉ t.dimensions := by
  unfold validate at h
  split at h
  · next hscalar => simp [List.isEmpty_iff.mp hscalar]
  · repeat' split at h
    all_goals try cases h
    next hzero _ =>
      intro hmem
      simpa using List.findIdx?_eq_none_iff.mp hzero _ hmem

namespace Lowering

open Lower

/-- What is accepted of an array: it is a variable, has no extent zero and a size for each dynamic
dimension. -/
theorem declared_array {d : Declaration} {symbol : Symbol} (h : declared d = .ok symbol)
    (hd : d.dimensions ≠ []) : d.cls = .variable ∧ symbol = d.symbol ∧ .fixed 0 ∉ d.dimensions ∧
      d.dimensions.countP (· == .dynamic) = d.extents.length := by
  obtain hc | hc := (declared_eq_ok h).2.2.2
  · simp [declared,hc,hd] at h
  · simp only [declared,hc] at h
    repeat' split at h
    all_goals try cases h
    next hvalid hcount => exact ⟨hc,rfl,Ty.fixed_zero_not_mem_of_validate hvalid,hcount⟩

/-- The code of the extents of an array, dimension by dimension: a fixed extent is a constant, and a
dynamic one is the next of the sizes. -/
structure Dimensioned (dimensions : List Extent) (sizes : List Value) (pieces : List Code) : Prop where
  length : pieces.length = dimensions.length
  fixed : ∀ (i : Nat) (n : UInt64), dimensions[i]? = some (.fixed n) →
    ∃ v : Int64, pieces[i]? = some [.const (.integer v)] ∧
      v.toInt = if n.toNat < 2 ^ 63 then (n.toNat : Int) else (n.toNat : Int) - 2 ^ 64
  dynamic : ∀ i : Nat, dimensions[i]? = some .dynamic →
    ∃ x, sizes[(dimensions.take i).countP (· == .dynamic)]? = some x ∧ pieces[i]? = some x.code

/-- Where the array of a declaration is made, and the state in which its sizes are put into code. The
outermost scope has been declared by then; in a routine the variable is declared and gets a slot. -/
inductive MadeAt (r : Routine) (d : Declaration) (s : State) : Place → State → Prop
  | global (hr : r.depth = 0) : MadeAt r d s (.global (s.scopes.normalize d.name)) s
  | slot {symbol : Symbol} {scopes : ScopeStack} (hr : r.depth ≠ 0)
    (hd : declare d s.scopes = (.ok symbol,scopes)) :
    MadeAt r d s (.slot (s.frame.localVar symbol.key symbol.type).1)
      ({ s with scopes : State }.withLocal symbol.key symbol.type)

section sizes

variable {r : Routine} {d : Declaration} {s s' : State} {code : Code}

theorem Dimensioned.cons_fixed {dimensions : List Extent} {sizes : List Value} {pieces : List Code}
    (h : Dimensioned dimensions sizes pieces) (n : UInt64) :
    Dimensioned (.fixed n :: dimensions) sizes ([.const (.integer n.toInt64)] :: pieces) := by
  refine ⟨by simp [h.length],?_,?_⟩
  · rintro (_ | i) m hm
    · obtain rfl : n = m := by simpa using hm
      exact ⟨_,rfl,toInt_toInt64 n⟩
    · exact h.fixed i m hm
  · rintro (_ | i) hi
    · cases hi
    · obtain ⟨x,hx,hpiece⟩ := h.dynamic i hi
      exact ⟨x,by simpa using hx,hpiece⟩

theorem Dimensioned.cons_dynamic {dimensions : List Extent} {sizes : List Value} {pieces : List Code}
    (h : Dimensioned dimensions sizes pieces) (x : Value) :
    Dimensioned (.dynamic :: dimensions) (x :: sizes) (x.code :: pieces) := by
  refine ⟨by simp [h.length],?_,?_⟩
  · rintro (_ | i) m hm
    · cases hm
    · exact h.fixed i m hm
  · rintro (_ | i) hi
    · exact ⟨x,rfl,rfl⟩
    · obtain ⟨y,hy,hpiece⟩ := h.dynamic i hi
      exact ⟨y,by simpa using hy,hpiece⟩

theorem dimensioned_extents : ∀ {dimensions : List Extent} {sizes : List Expr} {s : State} {code : Code},
    (extents r d dimensions sizes).Gives s code s' →
    dimensions.countP (· == .dynamic) = sizes.length →
    ∃ values pieces, (exprs r sizes).Gives s values s' ∧ (∀ x ∈ values, x.type = .scalar .integer) ∧
      code = pieces.flatten ∧ Dimensioned dimensions values pieces
  | [], sizes, s, code, h, hlen => by
    rw [extents] at h
    obtain rfl := List.length_eq_zero_iff.mp hlen.symm
    obtain ⟨rfl,rfl⟩ := gives_pure.mp h
    exact ⟨[],[],gives_pure.mpr ⟨rfl,rfl⟩,by simp,rfl,rfl,by simp,by simp⟩
  | .fixed n :: rest, sizes, s, code, h, hlen => by
    obtain ⟨more,hmore,rfl⟩ := gives_extents_fixed.mp h
    obtain ⟨values,pieces,hvalues,htypes,rfl,hpieces⟩ := dimensioned_extents hmore (by simpa using hlen)
    exact ⟨values,_,hvalues,htypes,rfl,hpieces.cons_fixed n⟩
  | .dynamic :: rest, [], s, code, h, _ => by
    rw [extents] at h
    exact absurd h gives_fail
  | .dynamic :: rest, size :: sizes, s, code, h, hlen => by
    obtain ⟨x,t,more,hx,htype,hmore,rfl⟩ := gives_extents_dynamic.mp h
    obtain ⟨values,pieces,hvalues,htypes,rfl,hpieces⟩ := dimensioned_extents hmore (by simpa using hlen)
    have hinteger : x.type = .scalar .integer := by
      unfold Typing.subscript Typing.expect at htype
      split at htype
      · next h => exact h
      · cases htype
    refine ⟨x :: values,_,gives_exprs_cons.mpr ⟨x,t,values,hx,hvalues,rfl⟩,?_,rfl,hpieces.cons_dynamic x⟩
    exact List.forall_mem_cons.mpr ⟨hinteger,htypes⟩

/-- The code of an array's declaration makes the array of its sizes. -/
theorem dimensioned_declaration (hn : needsRoom d = true)
    (hsizes : d.dimensions.countP (· == .dynamic) = d.extents.length)
    (h : (declaration r d).Gives s code s') :
    ∃ array t sizes pieces, MadeAt r d s array t ∧ (exprs r d.extents).Gives t sizes s' ∧
      (∀ x ∈ sizes, x.type = .scalar .integer) ∧ Dimensioned d.dimensions sizes pieces ∧
      code = pieces.flatten ++ [.alloc array d.base d.dimensions.length] := by
  obtain ⟨array,t,hmade,halloc⟩ :
      ∃ array t, MadeAt r d s array t ∧ (allocate r d array).Gives t code s' := by
    cases declaration_cases h with
    | global hr h =>
      rcases gives_allocateGlobal.mp h with ⟨_,h⟩ | ⟨hnot,_⟩
      · exact ⟨_,_,.global hr,h⟩
      · rw [hn] at hnot
        cases hnot
    | plain _ _ hnot =>
      rw [hn] at hnot
      cases hnot
    | array hr hd _ h => exact ⟨_,_,.slot hr hd,h⟩
  obtain ⟨sized,hsized,rfl⟩ := gives_allocate.mp halloc
  obtain ⟨sizes,pieces,hvalues,htypes,rfl,hpieces⟩ := dimensioned_extents hsized hsizes
  exact ⟨array,t,sizes,pieces,hmade,hvalues,htypes,hpieces,rfl⟩

end sizes

def Checks {α : Type} (x : Lower α) (s : State) : Prop := ∃ a s', x.Gives s a s'

section subscripts

variable {r : Routine} {s s' : State} {name : String} {line : Line}

theorem outOfRange?_literal {n : UInt64} {l : Line} {v : Int64} :
    outOfRange? (.fixed n) (.literal l (.integer v)) = none ↔
      n.toNat < 2 ^ 63 ∧ 1 ≤ v.toInt ∧ v.toInt ≤ n.toNat := by
  have hsigned := toInt_toInt64 n
  have hbelow : n.toNat < 2 ^ 64 := n.toNat_lt
  simp only [outOfRange?,Expr.integer?,Int64.lt_iff_toInt_lt,ite_eq_right_iff,reduceCtorEq,imp_false,
    not_or]
  rw [show (1 : Int64).toInt = 1 from rfl]
  split at hsigned <;> omega

theorem gives_literal {l : Line} {value : Literal} {x : Value} :
    (expr r (.literal l value)).Gives s x s' ↔ x = ⟨[.const value],.scalar value.base⟩ ∧ s' = s := by
  rw [expr]
  exact gives_pure

theorem gives_negated {l : Line} {w : Int64} {x : Value} :
    (expr r (.unary l .neg (.literal l (.integer w)))).Gives s x s' ↔
      x = ⟨[.const (.integer w),.unary .neg .integer],.scalar .integer⟩ ∧ s' = s := by
  rw [gives_unary]
  constructor
  · rintro ⟨operand,base,hoperand,hbase,rfl⟩
    obtain ⟨rfl,rfl⟩ := gives_literal.mp hoperand
    cases hbase
    exact ⟨rfl,rfl⟩
  · rintro ⟨rfl,rfl⟩
    exact ⟨_,.integer,gives_literal.mpr ⟨rfl,rfl⟩,rfl,rfl⟩

/-- A literal and a computed subscript differ only in the test of the literal. -/
theorem subscripts_literal {array : Place} {n : UInt64} {l : Line} {v : Int64} (w : Int64)
    {before after : List Expr} {dimensions : List Extent} {dim : Nat}
    (h : dimensions[before.length]? = some (.fixed n)) :
    (∃ code, (subscripts r name array line dim dimensions
        (before ++ .literal l (.integer v) :: after)).Gives s code s') ↔
      (∃ code, (subscripts r name array line dim dimensions
        (before ++ .unary l .neg (.literal l (.integer w)) :: after)).Gives s code s') ∧
      n.toNat < 2 ^ 63 ∧ 1 ≤ v.toInt ∧ v.toInt ≤ n.toNat := by
  induction before generalizing dimensions dim s with
  | nil =>
    cases dimensions with
    | nil => cases h
    | cons extent dimensions =>
      obtain rfl : extent = .fixed n := by simpa using h
      simp only [List.nil_append,gives_subscripts_cons,outOfRange?_literal,gives_literal,gives_negated]
      constructor
      · rintro ⟨_,_,_,more,⟨rfl,rfl⟩,htype,hrange,hmore,_⟩
        exact ⟨⟨_,_,_,more,⟨rfl,rfl⟩,htype,rfl,hmore,rfl⟩,hrange⟩
      · rintro ⟨⟨_,_,_,more,⟨rfl,rfl⟩,htype,_,hmore,_⟩,hrange⟩
        exact ⟨_,_,_,more,⟨rfl,rfl⟩,htype,hrange,hmore,rfl⟩
  | cons index before ih =>
    cases dimensions with
    | nil => cases h
    | cons extent dimensions =>
      have hrest (t : State) : (∃ code, (subscripts r name array line (dim + 1) dimensions
          (before ++ .literal l (.integer v) :: after)).Gives t code s') ↔ _ := ih h
      simp only [List.cons_append,gives_subscripts_cons]
      constructor
      · rintro ⟨_,x,t,more,hx,htype,hin,hmore,_⟩
        obtain ⟨⟨more',hmore'⟩,hrange⟩ := (hrest t).mp ⟨more,hmore⟩
        exact ⟨⟨_,x,t,more',hx,htype,hin,hmore',rfl⟩,hrange⟩
      · rintro ⟨⟨_,x,t,more,hx,htype,hin,hmore,_⟩,hrange⟩
        obtain ⟨more',hmore'⟩ := (hrest t).mpr ⟨⟨more,hmore⟩,hrange⟩
        exact ⟨_,x,t,more',hx,htype,hin,hmore',rfl⟩

theorem gives_element {found : Symbol × Nat} {indices : List Expr} {x : Value}
    (hr : s.scopes.resolve name = some found) (hf : found.1.isRoutine = false) :
    (expr r (.index line name indices)).Gives s x s' ↔
      ∃ p t code, (arrayPlace r found indices.length line).Gives (s.touch found line) p t ∧
        (subscripts r found.1.name p line 0 found.1.type.dimensions indices).Gives t code s' ∧
        x = ⟨code ++ [.loadElement p indices.length],found.1.type.element⟩ := by
  have hi : ¬s.MeansIntrinsic r name := by
    rintro ⟨hnone,_⟩
    rw [hr] at hnone
    cases hnone
  constructor
  · intro h
    cases index_cases h with
    | intrinsic hi' => exact absurd hi' hi
    | call _ hr' hc =>
      obtain rfl := Option.some.inj (hr.symm.trans hr')
      rw [hf] at hc
      cases hc
    | element _ hr' _ hp hs =>
      obtain rfl := Option.some.inj (hr.symm.trans hr')
      exact ⟨_,_,_,hp,hs,rfl⟩
  · rintro ⟨p,t,code,hp,hs,rfl⟩
    have hnot : (isIntrinsic r name).Gives s false s := gives_isIntrinsic.mpr ⟨by simp [hi],rfl⟩
    rw [expr]
    refine gives_bind.mpr ⟨false,s,hnot,?_⟩
    refine gives_bind.mpr ⟨found,_,gives_resolve.mpr ⟨hr,rfl⟩,?_⟩
    rw [hf]
    exact gives_bind.mpr ⟨p,t,hp,gives_bind.mpr ⟨code,s',hs,gives_pure.mpr ⟨rfl,rfl⟩⟩⟩

theorem gives_assignElement {found : Symbol × Nat} {indices : List Expr} {value : Expr} {code : Code}
    (hr : s.scopes.resolve name = some found) (hf : found.1.hasStorage = true) (hi : indices ≠ []) :
    (assign r ⟨name,indices⟩ value line).Gives s code s' ↔
      ∃ p t first u x c,
        (arrayPlace r found indices.length line).Gives (s.touch found line) p t ∧
        (subscripts r found.1.name p line 0 found.1.type.dimensions indices).Gives t first u ∧
        (expr r value).Gives u x s' ∧ Typing.assign found.1.type.element x.type line = .ok c ∧
        code = first ++ x.code ++ c.code ++ [.storeElement p indices.length] := by
  constructor
  · intro h
    cases assign_cases h with
    | result _ _ hi' => exact absurd hi' hi
    | stored _ _ hi' => exact absurd hi' hi
    | element hr' _ _ hp hs hx ht =>
      obtain rfl := Option.some.inj (hr.symm.trans hr')
      exact ⟨_,_,_,_,_,_,hp,hs,hx,ht,rfl⟩
  · rintro ⟨p,t,first,u,x,c,hp,hs,hx,ht,rfl⟩
    refine gives_bind.mpr ⟨found,_,gives_resolve.mpr ⟨hr,rfl⟩,?_⟩
    simp only [List.isEmpty_eq_false_iff.mpr hi,Bool.false_eq_true,false_and,and_false,if_false,hf,
      Bool.not_true,gives_bind,gives_coerce,gives_pure]
    exact ⟨p,t,hp,first,u,hs,x,s',hx,_,s',⟨c,ht,rfl,rfl⟩,rfl,rfl⟩

section access

variable {found : Symbol × Nat} {n : UInt64} {l : Line} {v : Int64} {before after : List Expr}

theorem checks_element_literal (hr : s.scopes.resolve name = some found)
    (hf : found.1.isRoutine = false)
    (h : found.1.type.dimensions[before.length]? = some (.fixed n)) (w : Int64) :
    Checks (expr r (.index line name (before ++ .literal l (.integer v) :: after))) s ↔
      Checks (expr r (.index line name (before ++ .unary l .neg (.literal l (.integer w)) :: after))) s ∧
        n.toNat < 2 ^ 63 ∧ 1 ≤ v.toInt ∧ v.toInt ≤ n.toNat := by
  simp only [Checks,gives_element hr hf,List.length_append,List.length_cons]
  constructor
  · rintro ⟨_,s',p,t,code,hp,hs,_⟩
    obtain ⟨⟨code',hs'⟩,hrange⟩ := (subscripts_literal w h).mp ⟨code,hs⟩
    exact ⟨⟨_,s',p,t,code',hp,hs',rfl⟩,hrange⟩
  · rintro ⟨⟨_,s',p,t,code,hp,hs,_⟩,hrange⟩
    obtain ⟨code',hs'⟩ := (subscripts_literal w h).mpr ⟨⟨code,hs⟩,hrange⟩
    exact ⟨_,s',p,t,code',hp,hs',rfl⟩

theorem checks_assign_literal (hr : s.scopes.resolve name = some found)
    (hf : found.1.hasStorage = true)
    (h : found.1.type.dimensions[before.length]? = some (.fixed n)) (w : Int64) (value : Expr) :
    Checks (assign r ⟨name,before ++ .literal l (.integer v) :: after⟩ value line) s ↔
      Checks (assign r ⟨name,before ++ .unary l .neg (.literal l (.integer w)) :: after⟩ value line) s ∧
        n.toNat < 2 ^ 63 ∧ 1 ≤ v.toInt ∧ v.toInt ≤ n.toNat := by
  simp only [Checks,gives_assignElement hr hf (List.append_ne_nil_of_right_ne_nil _ (List.cons_ne_nil _ _)),
    List.length_append,List.length_cons]
  constructor
  · rintro ⟨_,s',p,t,code,u,x,c,hp,hs,hx,ht,_⟩
    obtain ⟨⟨code',hs'⟩,hrange⟩ := (subscripts_literal w h).mp ⟨code,hs⟩
    exact ⟨⟨_,s',p,t,code',u,x,c,hp,hs',hx,ht,rfl⟩,hrange⟩
  · rintro ⟨⟨_,s',p,t,code,u,x,c,hp,hs,hx,ht,_⟩,hrange⟩
    obtain ⟨code',hs'⟩ := (subscripts_literal w h).mpr ⟨⟨code,hs⟩,hrange⟩
    exact ⟨_,s',p,t,code',u,x,c,hp,hs',hx,ht,rfl⟩

end access

end subscripts

/-- Of an array that may be declared: its fixed extents are positive; the code that makes it has, for
each dimension in order, the fixed extent as a constant or the code of the next size, and every size is
used; and in an access a literal subscript of a fixed dimension is accepted exactly if a computed one
is, the extent is below `2 ^ 63`, and the subscript lies between one and the extent. An extent from
`2 ^ 63` on becomes a negative constant, and no literal subscript is accepted for it. -/
theorem fixed_extents {d : Declaration} {symbol : Symbol} (h : declared d = .ok symbol)
    (hd : d.dimensions ≠ []) :
    (∀ n, .fixed n ∈ d.dimensions → 0 < n.toNat) ∧
    d.dimensions.countP (· == .dynamic) = d.extents.length ∧
    (∀ r s code s', (declaration r d).Gives s code s' →
      ∃ array t sizes pieces, MadeAt r d s array t ∧ (exprs r d.extents).Gives t sizes s' ∧
        (∀ x ∈ sizes, x.type = .scalar .integer) ∧ Dimensioned d.dimensions sizes pieces ∧
        code = pieces.flatten ++ [.alloc array d.base d.dimensions.length]) ∧
    ∀ (r : Routine) (s : State) (name key : String) (last line l : Line) (depth : Nat)
      (before after : List Expr) (n : UInt64) (v w : Int64),
      s.scopes.resolve name = some ({ symbol with key, line := last },depth) →
      d.dimensions[before.length]? = some (.fixed n) →
      (Checks (expr r (.index line name (before ++ .literal l (.integer v) :: after))) s ↔
        Checks (expr r (.index line name
          (before ++ .unary l .neg (.literal l (.integer w)) :: after))) s ∧
        n.toNat < 2 ^ 63 ∧ 1 ≤ v.toInt ∧ v.toInt ≤ n.toNat) ∧
      ∀ value,
        (Checks (assign r ⟨name,before ++ .literal l (.integer v) :: after⟩ value line) s ↔
          Checks (assign r ⟨name,
            before ++ .unary l .neg (.literal l (.integer w)) :: after⟩ value line) s ∧
          n.toNat < 2 ^ 63 ∧ 1 ≤ v.toInt ∧ v.toInt ≤ n.toNat) := by
  obtain ⟨hc,rfl,hzero,hsizes⟩ := declared_array h hd
  refine ⟨fun n hn => ?_,hsizes,fun r s code s' hcode => ?_,?_⟩
  · refine Nat.pos_of_ne_zero fun hn0 => hzero ?_
    obtain rfl : n = 0 := UInt64.toNat_inj.mp hn0
    exact hn
  · refine dimensioned_declaration ?_ hsizes hcode
    simp [needsRoom,hc,hd]
  · intro r s name key last line l depth before after n v w hr hfixed
    have hstorage : d.symbol.hasStorage = true := by simp [Symbol.hasStorage,Declaration.symbol,hc]
    have hroutine : d.symbol.isRoutine = false := by simp [Symbol.isRoutine,Declaration.symbol,hc]
    exact ⟨checks_element_literal hr hroutine hfixed w,
      fun value => checks_assign_literal hr hstorage hfixed w value⟩

/-- An array of three rows and five columns, the columns counted when the program runs. -/
def grid : Declaration :=
  { name := "A", base := .integer, dimensions := [.fixed 3,.dynamic],
    extents := [.literal 1 (.integer 5)], line := 1 }

theorem fixed_extents_grid :
    let r : Routine := { language := .comal, entry := "P", depth := 0, returns := .void }
    let s : State := { scopes := (ScopeStack.start "P" true .nested).add [grid.symbol] }
    let row (v : Int64) : Expr := .index 2 "A" [.literal 2 (.integer v),.literal 2 (.integer 4)]
    Checks (expr r (row 3)) s ∧ ¬Checks (expr r (row 4)) s ∧ ¬Checks (expr r (row 0)) s := by
  intro r s row
  have hd : declared grid = .ok grid.symbol := rfl
  have hr : s.scopes.resolve "A" = some (grid.symbol,0) := by decide +kernel
  have hcomputed : Checks (expr r (.index 2 "A" ([] ++ .unary 2 .neg (.literal 2 (.integer 0)) ::
      [.literal 2 (.integer 4)]))) s := ⟨_,_,rfl⟩
  have haccess (v : Int64) := ((fixed_extents hd (List.cons_ne_nil _ _)).2.2.2 r s "A" "A" 1 2 2 0 []
    [.literal 2 (.integer 4)] 3 v 0 hr rfl).1
  exact ⟨(haccess 3).mpr ⟨hcomputed,by decide⟩,fun h => absurd ((haccess 4).mp h).2 (by decide),
    fun h => absurd ((haccess 0).mp h).2 (by decide)⟩

/-- A unit with an array of `2 ^ 63` elements. -/
def huge (main : List Stmt) : SourceUnit :=
  { name := "HUGE", language := .comal, main,
    globals := [{ name := "A", base := .integer, dimensions := [.fixed 9223372036854775808], line := 1 }] }

/-- An array of `2 ^ 63` elements may be declared. It is made with a negative extent, and its first
element cannot be named by a literal. -/
theorem huge_extent_negative :
    ((run (huge []) true).2.toOption.map fun m => m.routines.map RoutineCode.code) =
      some [[.const (.integer (-9223372036854775808)),.alloc (.global "A") .integer 1,.ret false]] ∧
    ∃ d, (run (huge [.assign 2 ⟨"A",[.literal 2 (.integer 1)]⟩ (.literal 2 (.integer 7))]) true).2 =
      .error [d] ∧
      d.text = "line 2: subscript 1 is out of range 1..9223372036854775808 in dimension 1 of 'A'" := by
  refine ⟨by decide +kernel,_,rfl,by decide +kernel⟩

end Lowering
end StackCompiler
