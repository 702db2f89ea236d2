import StackCompiler.Proofs.TypedRoutines

/-! Where lowered code addresses elements and makes arrays.
The instructions that do so are those of the accesses in the source, one by one. Right before such an
instruction stands the code of the subscripts or of the extents, and before the storing of an element
also that of its value. -/
namespace StackCompiler

/-- The instruction addresses an element or makes an array. -/
def Instr.addresses : Instr → Bool
  | loadElement .. | storeElement .. | alloc .. => true
  | _ => false

namespace Code

/-- How many instructions before a position address elements or make arrays. -/
def accessNumber (code : Code) (pc : Nat) : Nat := (code.take pc).countP Instr.addresses

/-- The instructions that address elements or make arrays belong to the listed things, one by one, and
right before each of them stands code that belongs to it. -/
structure Sited {α : Type} (P : α → Instr → Code → Prop) (xs : List α) (code : Code) : Prop where
  count : xs.length = code.countP Instr.addresses
  site : ∀ before i after, code = before ++ i :: after → i.addresses = true →
    ∃ x seg, xs[before.countP Instr.addresses]? = some x ∧ seg <:+ before ∧ P x i seg

section sited

variable {α : Type} {P : α → Instr → Code → Prop} {xs ys : List α} {a b : Code}

theorem sited_plain (h : a.all (!·.addresses) = true) : Sited P [] a := by
  have hplain : ∀ i ∈ a, ¬ i.addresses = true := by
    intro i hi
    have hi' := List.all_eq_true.mp h i hi
    simpa using hi'
  refine ⟨(List.countP_eq_zero.mpr hplain).symm,?_⟩
  rintro before i after rfl hi
  exact absurd hi (hplain i (by simp))

theorem Sited.append (ha : Sited P xs a) (hb : Sited P ys b) : Sited P (xs ++ ys) (a ++ b) := by
  refine ⟨by rw [List.length_append,List.countP_append,ha.count,hb.count],?_⟩
  have hlater : ∀ more i after, b = more ++ i :: after → i.addresses = true →
      ∃ x seg, (xs ++ ys)[(a ++ more).countP Instr.addresses]? = some x ∧ seg <:+ a ++ more ∧
        P x i seg := by
    intro more i after he hi
    obtain ⟨x,seg,hx,hseg,hp⟩ := hb.site more i after he hi
    refine ⟨x,seg,?_,hseg.trans (List.suffix_append a more),hp⟩
    rw [List.countP_append,← ha.count,List.getElem?_append_right (Nat.le_add_right _ _),
      Nat.add_sub_cancel_left]
    exact hx
  intro before i after he hi
  rcases List.append_eq_append_iff.mp he with ⟨more,rfl,hmore⟩ | ⟨more,rfl,hmore⟩
  · exact hlater more i after hmore hi
  · cases more with
    | nil =>
      rw [List.append_nil] at hlater
      have hfirst := hlater [] i after hmore.symm hi
      rwa [List.append_nil] at hfirst
    | cons j more =>
      obtain ⟨rfl,_⟩ := List.cons.inj hmore
      obtain ⟨x,seg,hx,hseg,hp⟩ := ha.site before i more rfl hi
      refine ⟨x,seg,?_,hseg,hp⟩
      rw [List.getElem?_append_left (List.getElem?_eq_some_iff.mp hx).1]
      exact hx

theorem Sited.plain (ha : Sited P xs a) (h : b.all (!·.addresses) = true) : Sited P xs (a ++ b) := by
  have hall := ha.append (sited_plain (P := P) h)
  rwa [List.append_nil] at hall

theorem Sited.coerce (ha : Sited P xs a) (c : Coercion) : Sited P xs (a ++ c.code) := by
  cases c <;> exact ha.plain rfl

theorem Sited.site_append (ha : Sited P xs a) {x : α} {i : Instr} (hi : i.addresses = true)
    (hp : P x i a) : Sited P (xs ++ [x]) (a ++ [i]) := by
  refine ⟨by simp [ha.count,hi],?_⟩
  intro before j after he hj
  rcases List.append_eq_append_iff.mp he with ⟨more,rfl,hmore⟩ | ⟨more,rfl,hmore⟩
  · cases more with
    | nil =>
      obtain ⟨rfl,_⟩ := List.cons.inj hmore
      refine ⟨x,a,?_,by simp,hp⟩
      rw [List.append_nil,← ha.count]
      exact List.getElem?_concat_length
    | cons k more => simp at hmore
  · cases more with
    | nil =>
      obtain ⟨rfl,_⟩ := List.cons.inj hmore
      rw [List.append_nil] at ha hp
      refine ⟨x,before,?_,List.suffix_refl _,hp⟩
      rw [← ha.count]
      exact List.getElem?_concat_length
    | cons k more =>
      obtain ⟨rfl,_⟩ := List.cons.inj hmore
      obtain ⟨y,seg,hy,hseg,hq⟩ := ha.site before j more rfl hj
      refine ⟨y,seg,?_,hseg,hq⟩
      rw [List.getElem?_append_left (List.getElem?_eq_some_iff.mp hy).1]
      exact hy

end sited

end Code

section accesses

variable {scopes : ScopeStack} {name : String} {indices : List Expr}

theorem elementAccess_of_none (h : scopes.resolve name = none) :
    elementAccess scopes name indices = [] := by
  rw [elementAccess,h]

theorem elementAccess_of_routine {found : Symbol × Nat} (h : scopes.resolve name = some found)
    (hc : found.1.isRoutine = true) : elementAccess scopes name indices = [] := by
  rw [elementAccess,h]
  exact if_pos hc

theorem elementAccess_of_array {found : Symbol × Nat} (h : scopes.resolve name = some found)
    (hc : found.1.isRoutine = false) :
    elementAccess scopes name indices = [.element found indices] := by
  rw [elementAccess,h]
  exact if_neg (ne_true_of_eq_false hc)

theorem Expr.accesses_of_constant {e : Expr} {l : Literal} (h : e.constant? = some l) :
    e.accesses scopes = [] := by
  unfold Expr.constant? at h
  split at h
  · rw [Expr.accesses]
  · rw [Expr.accesses,Expr.accesses]
  · rw [Expr.accesses,Expr.accesses]
  · cases h

end accesses

namespace Lowering

open Lower Code Evaluation

/-- The code that belongs to an access: the subscripts of an element of a variable whose type the context
knows, followed by the value that is stored, or the extents of a declared array. Inside a routine arrays
are made only for slots. -/
inductive Site (Γ : Context) (depth : Nat) : Access → Instr → Code → Prop
  | load {r : Routine} {line : Line} {name : String} {indices : List Expr} {s s' : State}
    {found : Symbol × Nat} {p : Place} {seg : Code} (hp : Γ.place p found.1.type)
    (hrank : found.1.type.rank = indices.length)
    (hs : (subscripts r name p line 0 found.1.type.dimensions indices).Gives s seg s') :
    Site Γ depth (.element found indices) (.loadElement p indices.length) seg
  | store {r : Routine} {line : Line} {name : String} {indices : List Expr} {s s' : State}
    {found : Symbol × Nat} {p : Place} {seg last : Code} (hp : Γ.place p found.1.type)
    (hrank : found.1.type.rank = indices.length)
    (hs : (subscripts r name p line 0 found.1.type.dimensions indices).Gives s seg s')
    (hlast : last.Pushes) :
    Site Γ depth (.element found indices) (.storeElement p indices.length) (seg ++ last)
  | alloc {r : Routine} {d : Declaration} {s s' : State} {p : Place} {seg : Code}
    (hp : Γ.place p d.type) (hdepth : depth ≠ 0 → ∃ n, p = .slot n)
    (hs : (extents r d d.dimensions d.extents).Gives s seg s') :
    Site Γ depth (.array d) (.alloc p d.base d.dimensions.length) seg

section calls

variable {Γ : Context} {r : Routine} {D : Declaration → Prop} {s s' : State} {line : Line}
  {name : String} {env : ScopeStack} {P : Access → Instr → Code → Prop} {xs : List Access}

theorem sited_argumentCode {es : List Expr} {values : List Value} {cs : List Coercion}
    (h : List.Forall₂ (fun e v => v.code.Sited P (Expr.accesses env e)) es values)
    (hlen : cs.length = values.length) :
    (argumentCode values cs).Sited P (Expr.accessesAll env es) := by
  induction h generalizing cs with
  | nil =>
    rw [Expr.accessesAll]
    exact sited_plain rfl
  | @cons e v es values hv _ ih =>
    cases cs with
    | nil => cases hlen
    | cons c cs =>
      rw [Expr.accessesAll]
      exact (hv.coerce c).append (ih (Nat.succ.inj hlen))

theorem sited_callCase {es : List Expr} {args : Lower (List Value)} {p : Code × Option Ty}
    {target : CallTarget} {signature : Symbol} {t : State} {values : List Value}
    {coercions : List Coercion}
    (hc : CallCase r name line args s p s' target signature t values coercions)
    (hfits : Fits Γ r D s s') (he : s.Agrees env)
    (hargs : ∀ {t values}, args.Gives t values s' → Fits Γ r D t s' → t.Agrees env →
      List.Forall₂ (fun e v => v.code.Sited P (Expr.accesses env e)) es values) :
    p.1.Sited P (Expr.accessesAll env es) := by
  have hvalues := hargs hc.args (hfits.from hc.callee.changes) (callee?_of_case hc.callee he).1
  have hlen : coercions.length = values.length := by
    rw [Typing.length_call hc.typing,List.length_map]
  rw [hc.code]
  exact (sited_argumentCode hvalues hlen).plain rfl

theorem sited_callValue {es : List Expr} {args : Lower (List Value)} {v : Value}
    (h : (callValue r name line args).Gives s v s') (hfits : Fits Γ r D s s') (he : s.Agrees env)
    (hargs : ∀ {t values}, args.Gives t values s' → Fits Γ r D t s' → t.Agrees env →
      List.Forall₂ (fun e v => v.code.Sited P (Expr.accesses env e)) es values) :
    v.code.Sited P (Expr.accessesAll env es) := by
  obtain ⟨target,signature,t,values,coercions,_,_,hc⟩ := callValue_cases h
  exact sited_callCase hc hfits he hargs

theorem sited_ident {v : Value} (h : (ident r name line).Gives s v s') (hfits : Fits Γ r D s s')
    (he : s.Agrees env) : v.code.Sited P [] := by
  have hnil : ∀ {t : State} {values : List Value}, (pure [] : Lower (List Value)).Gives t values s' →
      List.Forall₂ (fun e v => v.code.Sited P (Expr.accesses env e)) [] values := by
    intro t values hvalues
    rw [(gives_pure.mp hvalues).1]
    exact .nil
  have hcall : ∀ {t : State}, (callValue r name line (pure [])).Gives t v s' → Fits Γ r D t s' →
      t.Agrees env → v.code.Sited P [] := by
    intro t hc hfits he
    have hsited := sited_callValue hc hfits he fun hv _ _ => hnil hv
    rwa [Expr.accessesAll] at hsited
  cases ident_cases h with
  | intrinsic _ hc => exact hcall hc hfits he
  | constant | stored | result => exact sited_plain rfl
  | call _ _ _ _ hc => exact hcall hc (hfits.from (changes_touch s _ line)) (he.touch _ _)

end calls

mutual

theorem sited_expr {Γ : Context} {D : Declaration → Prop} {env : ScopeStack} (r : Routine) :
    ∀ (e : Expr) {s : State} {v : Value} {s' : State}, (expr r e).Gives s v s' → Fits Γ r D s s' →
      s.Agrees env → v.code.Sited (Site Γ r.depth) (e.accesses env)
  | .literal _ _, _, _, _, h, _, _ => by
    rw [expr] at h
    obtain ⟨rfl,_⟩ := gives_pure.mp h
    rw [Expr.accesses]
    exact sited_plain rfl
  | .ident _ _, _, _, _, h, hfits, he => by
    rw [Expr.accesses]
    exact sited_ident (by rwa [expr] at h) hfits he
  | .index line _ indices, s, _, _, h, hfits, he => by
    rw [Expr.accesses]
    cases index_cases h with
    | intrinsic hi hc =>
      rw [elementAccess_of_none (ScopeStack.resolve_none_of_forget he hi.1),List.append_nil]
      exact sited_callValue hc hfits he (sited_exprs r indices)
    | @call found _ _ _ hr hf hc =>
      obtain ⟨_,hr'⟩ := ScopeStack.resolve_of_forget he hr
      rw [elementAccess_of_routine hr' hf,List.append_nil]
      exact sited_callValue hc (hfits.from (changes_touch s found line)) (he.touch _ _)
        (sited_exprs r indices)
    | @element found p code t _ _ hr hf hp hs =>
      obtain ⟨_,hr'⟩ := ScopeStack.resolve_of_forget he hr
      obtain ⟨hst,_,hrank,hplace⟩ := gives_arrayPlace.mp hp
      have hchanges := changes_of_gives hplace (stays_place hst (sees_touch hr line))
      have hsub := changes_of_gives hs (stays_subscripts r _ _ _ _ _ _ _)
      have harray : Γ.place p found.1.type := hfits.place .refl (.stored hr hst hplace) hsub
      have hcode := sited_subscripts r indices hs
        (hfits.from ((changes_touch s found line).trans hchanges)) ((he.touch _ _).place hplace) hrank
      rw [elementAccess_of_array hr' hf]
      exact hcode.site_append rfl (.load harray hrank hs)
  | .unary _ _ operand, _, _, _, h, hfits, he => by
    obtain ⟨x,base,hx,_,rfl⟩ := gives_unary.mp h
    rw [Expr.accesses]
    exact (sited_expr r operand hx hfits he).plain rfl
  | .binary _ left _ right, _, _, _, h, hfits, he => by
    obtain ⟨x,t,y,typing,hx,hy,_,rfl⟩ := gives_binary.mp h
    have hst := changes_of_gives hx (stays_expr r left _)
    have hts := changes_of_gives hy (stays_expr r right _)
    have hleft := (sited_expr r left hx (hfits.upTo hts) he).coerce typing.left
    have hright := sited_expr r right hy (hfits.from hst) (known_expr left hx he).1
    rw [Expr.accesses]
    exact ((hleft.append hright).coerce typing.right).plain rfl
  | .call _ _ args, _, _, _, h, hfits, he => by
    rw [expr] at h
    rw [Expr.accesses]
    exact sited_callValue h hfits he (sited_exprs r args)

theorem sited_exprs {Γ : Context} {D : Declaration → Prop} {env : ScopeStack} (r : Routine) :
    ∀ (es : List Expr) {s : State} {values : List Value} {s' : State},
      (exprs r es).Gives s values s' → Fits Γ r D s s' → s.Agrees env →
      List.Forall₂ (fun e v => v.code.Sited (Site Γ r.depth) (Expr.accesses env e)) es values
  | [], _, _, _, h, _, _ => by
    rw [exprs] at h
    rw [(gives_pure.mp h).1]
    exact .nil
  | e :: rest, _, _, _, h, hfits, he => by
    obtain ⟨x,t,xs,hx,hxs,rfl⟩ := gives_exprs_cons.mp h
    have hst := changes_of_gives hx (stays_expr r e _)
    have hts := changes_of_gives hxs (stays_exprs r rest _)
    exact .cons (sited_expr r e hx (hfits.upTo hts) he)
      (sited_exprs r rest hxs (hfits.from hst) (known_expr e hx he).1)

theorem sited_subscripts {Γ : Context} {D : Declaration → Prop} {env : ScopeStack} (r : Routine) :
    ∀ (indices : List Expr) {name : String} {array : Place} {line : Line} {dim : Nat}
      {extents : List Extent} {s : State} {code : Code} {s' : State},
      (subscripts r name array line dim extents indices).Gives s code s' → Fits Γ r D s s' →
      s.Agrees env → extents.length = indices.length →
      code.Sited (Site Γ r.depth) (Expr.accessesAll env indices)
  | [], _, _, _, _, _, _, _, _, h, _, _, _ => by
    rw [subscripts] at h
    rw [(gives_pure.mp h).1,Expr.accessesAll]
    exact sited_plain rfl
  | _ :: _, _, _, _, _, [], _, _, _, _, _, _, hlen => by cases hlen
  | index :: rest, _, array, _, dim, extent :: extents, _, _, _, h, hfits, he, hlen => by
    obtain ⟨x,t,more,hx,_,_,hm,rfl⟩ := gives_subscripts_cons.mp h
    have hst := changes_of_gives hx (stays_expr r index _)
    have hts := changes_of_gives hm (stays_subscripts r _ _ _ _ _ _ _)
    have hcheck : (boundsCheck array dim extent).all (!·.addresses) = true := by
      cases extent <;> rfl
    rw [Expr.accessesAll]
    exact ((sited_expr r index hx (hfits.upTo hts) he).plain hcheck).append
      (sited_subscripts r rest hm (hfits.from hst) (known_expr index hx he).1 (Nat.succ.inj hlen))

end

section statements

variable {Γ : Context} {r : Routine} {D : Declaration → Prop} {env : ScopeStack} {s s' : State}
  {line : Line} {name : String} {code : Code}

theorem sited_extents {d : Declaration} : ∀ (dimensions : List Extent) {sizes : List Expr}
    {s : State} {code : Code} {s' : State}, (extents r d dimensions sizes).Gives s code s' →
      Fits Γ r D s s' → s.Agrees env →
      code.Sited (Site Γ r.depth) (Expr.accessesAll env (sizes.take (dimensions.count .dynamic)))
  | [], _, _, _, _, h, _, _ => by
    rw [extents] at h
    rw [(gives_pure.mp h).1,List.count_nil,List.take_zero,Expr.accessesAll]
    exact sited_plain rfl
  | .fixed n :: rest, _, _, _, _, h, hfits, he => by
    obtain ⟨more,hm,rfl⟩ := gives_extents_fixed.mp h
    have hconst : Sited (Site Γ r.depth) [] [.const (.integer n.toInt64)] := sited_plain rfl
    rw [List.count_cons_of_ne Extent.noConfusion]
    exact hconst.append (sited_extents rest hm hfits he)
  | .dynamic :: _, [], _, _, _, h, _, _ => by
    rw [extents] at h
    exact absurd h gives_fail
  | .dynamic :: rest, size :: sizes, _, _, _, h, hfits, he => by
    obtain ⟨x,t,more,hx,_,hm,rfl⟩ := gives_extents_dynamic.mp h
    have hst := changes_of_gives hx (stays_expr r size _)
    have hts := changes_of_gives hm (stays_extents r d rest sizes t)
    rw [List.count_cons_self,List.take_succ_cons,Expr.accessesAll]
    exact (sited_expr r size hx (hfits.upTo hts) he).append
      (sited_extents rest hm (hfits.from hst) (known_expr size hx he).1)

theorem sited_allocate {d : Declaration} {array : Place} (h : (allocate r d array).Gives s code s')
    (hfits : Fits Γ r D s s') (he : s.Agrees env) (hn : needsRoom d = true)
    (harray : Γ.place array d.type) (hdepth : r.depth ≠ 0 → ∃ n, array = .slot n) :
    code.Sited (Site Γ r.depth) (d.accesses env) := by
  obtain ⟨sizes,hs,rfl⟩ := gives_allocate.mp h
  rw [Declaration.accesses,if_pos ((makesArray_iff d).mpr hn)]
  exact (sited_extents d.dimensions hs hfits he).site_append rfl (.alloc harray hdepth hs)

theorem accesses_of_needsRoom {d : Declaration} (hn : needsRoom d = false) :
    d.accesses env = [] :=
  if_neg fun ha => ne_true_of_eq_false hn ((makesArray_iff d).mp ha)

theorem sited_allocateGlobal {d : Declaration} (h : (allocateGlobal r d).Gives s code s')
    (hfits : Fits Γ r D s s') (he : s.Agrees env) (hr : r.depth = 0) (hd : D d) :
    code.Sited (Site Γ r.depth) (d.accesses env) := by
  rcases gives_allocateGlobal.mp h with ⟨hn,h⟩ | ⟨hn,rfl,_⟩
  · have hchanges := changes_of_gives h (stays_allocate (r := r))
    exact sited_allocate h hfits he hn (hfits.place .refl (.room hr hd hn) hchanges)
      fun hz => absurd hr hz
  · rw [accesses_of_needsRoom hn]
    exact sited_plain rfl

theorem sited_declaration {d : Declaration} (h : (declaration r d).Gives s code s')
    (hfits : Fits Γ r D s s') (he : s.Agrees env) (hd : D d) :
    code.Sited (Site Γ r.depth) (d.accesses (after r.setting env (.declare line d))) := by
  rw [after]
  cases declaration_cases h with
  | global hr h =>
    rw [if_pos hr]
    exact sited_allocateGlobal h hfits he hr hd
  | plain _ _ hn =>
    rw [accesses_of_needsRoom hn]
    exact sited_plain rfl
  | @array symbol scopes _ _ hr hdecl hn h =>
    obtain ⟨env',hdecl',he'⟩ := declare_of_agrees he hdecl
    have hfound : Found r D s _ _ _ := .array hr hdecl hn
    have hchanges := changes_of_gives h (stays_allocate (r := r))
    have hplace := hfits.place .refl hfound hchanges
    obtain ⟨new,hnew,rfl,_,rfl⟩ := declare_cases hdecl
    rw [if_neg hr,hdecl']
    exact sited_allocate h (hfits.from hfound.changes) he' hn ((declared_eq_ok hnew).2.1 ▸ hplace)
      fun _ => ⟨_,rfl⟩

theorem sited_assign {target : Target} {value : Expr}
    (h : (assign r target value line).Gives s code s') (hfits : Fits Γ r D s s')
    (he : s.Agrees env) :
    code.Sited (Site Γ r.depth) ((Stmt.assign line target value).accesses r.setting env) := by
  rw [Stmt.accesses]
  cases assign_cases h with
  | @result found x c t hr hc hi hn hx ht =>
    have htouch := changes_touch (r := r) s found line
    have hslot : t.Changes r (t.withLocal found.1.key (.scalar r.returns)) := .single (.result hn)
    have hvalue := sited_expr r value hx (hfits.mono htouch hslot) (he.touch _ _)
    rw [hi,Expr.accessesAll,List.isEmpty_nil,if_pos rfl,List.append_nil]
    exact (hvalue.coerce c).plain rfl
  | @stored found p x c t _ hr hc hi hp hx ht ha =>
    have hplaced := changes_of_gives hp (stays_place hc (sees_touch hr line))
    have hvalue := sited_expr r value hx (hfits.from ((changes_touch s found line).trans hplaced))
      ((he.touch _ _).place hp)
    rw [hi,Expr.accessesAll,List.isEmpty_nil,if_pos rfl,List.append_nil]
    exact (hvalue.coerce c).plain rfl
  | @element found p indices x c t u _ hr hc hi hp hs hx ht =>
    obtain ⟨_,hr'⟩ := ScopeStack.resolve_of_forget he hr
    obtain ⟨_,_,hrank,hp'⟩ := gives_arrayPlace.mp hp
    have hplaced := changes_of_gives hp' (stays_place hc (sees_touch hr line))
    have hst := (changes_touch s found line).trans hplaced
    have hsub := changes_of_gives hs (stays_subscripts r _ _ _ _ _ _ _)
    have hexpr := changes_of_gives hx (stays_expr r value _)
    have het := (he.touch found line).place hp'
    have hplace := hfits.place .refl (.stored hr hc hp') (hsub.trans hexpr)
    have hindices := sited_subscripts r target.indices hs (hfits.mono hst hexpr) het hrank
    have hvalue := (sited_expr r value hx (hfits.from (hst.trans hsub))
      (known_subscripts target.indices hs het)).coerce c
    have hcode := hindices.append hvalue
    have hroutine : found.1.isRoutine = false := by
      cases hcls : found.1.cls <;> simp_all [Symbol.isRoutine,Symbol.hasStorage]
    have hempty : ¬ target.indices.isEmpty = true := fun h => hi (List.isEmpty_iff.mp h)
    rw [if_neg hempty,elementAccess_of_array hr' hroutine,List.append_assoc indices]
    exact hcode.site_append rfl (.store hplace hrank hs ((pushes_expr r value hx).coerce c))

theorem sited_callStmt {args : List Expr} (h : (callStmt r name args line).Gives s code s')
    (hfits : Fits Γ r D s s') (he : s.Agrees env) :
    code.Sited (Site Γ r.depth) (Expr.accessesAll env args) := by
  obtain ⟨p,hp,rfl⟩ := gives_callStmt.mp h
  obtain ⟨target,signature,t,values,coercions,hc⟩ := call_cases hp
  have hcall := sited_callCase hc hfits he (sited_exprs r args)
  cases p.2 with
  | none => exact hcall
  | some => exact hcall.plain rfl

theorem sited_single {e : Expr} {x : Value} (h : (expr r e).Gives s x s') (hfits : Fits Γ r D s s')
    (he : s.Agrees env) : x.code.Sited (Site Γ r.depth) (Expr.accessesAll env [e]) := by
  rw [Expr.accessesAll,Expr.accessesAll,List.append_nil]
  exact sited_expr r e h hfits he

theorem sited_ret {value : Option Expr} (h : (ret r value line).Gives s code s')
    (hfits : Fits Γ r D s s') (he : s.Agrees env) :
    code.Sited (Site Γ r.depth) (Expr.accessesAll env value.toList) := by
  cases ret_cases h with
  | nothing | result =>
    rw [Option.toList_none,Expr.accessesAll]
    exact sited_plain rfl
  | value _ hx _ => exact ((sited_single hx hfits he).coerce _).plain rfl

theorem sited_printAll : ∀ (values : List Expr) {s : State} {code : Code} {s' : State},
    (printAll r line values).Gives s code s' → Fits Γ r D s s' → s.Agrees env →
    code.Sited (Site Γ r.depth) (Expr.accessesAll env values)
  | [], _, _, _, h, _, _ => by
    rw [printAll] at h
    rw [(gives_pure.mp h).1,Expr.accessesAll]
    exact sited_plain rfl
  | e :: rest, _, _, _, h, hfits, he => by
    obtain ⟨x,t,printer,more,hx,_,hm,rfl⟩ := gives_printAll_cons.mp h
    have hst := changes_of_gives hx (stays_expr r e _)
    have hts := changes_of_gives hm (stays_printAll r line rest t)
    rw [List.append_cons,Expr.accessesAll]
    exact ((sited_expr r e hx (hfits.upTo hts) he).plain rfl).append
      (sited_printAll rest hm (hfits.from hst) (known_expr e hx he).1)

theorem sited_step {type : Ty} {step : Option Expr} {p : Code × Step}
    (h : StepCase r type s step p s') (hfits : Fits Γ r D s s') (he : s.Agrees env) :
    p.1.Sited (Site Γ r.depth) (Expr.accessesAll env step.toList) := by
  cases h with
  | one =>
    rw [Option.toList_none,Expr.accessesAll]
    exact sited_plain rfl
  | constant hl =>
    rw [Option.toList_some,Expr.accessesAll,Expr.accesses_of_constant hl,Expr.accessesAll]
    exact sited_plain rfl
  | @dynamic e x c t _ hx _ =>
    have hslot : t.Changes r { t with frame := t.frame.temp type } := .single (.temp t type)
    exact ((sited_single hx (hfits.upTo hslot) he).coerce c).plain rfl

theorem sited_forHead {first last : Expr} {step : Option Expr} {head : ForHead}
    (h : (forHead r name first last step line).Gives s head s') (hfits : Fits Γ r D s s')
    (he : s.Agrees env) :
    head.code.Sited (Site Γ r.depth)
      (first.accesses env ++ last.accesses env ++ Expr.accessesAll env step.toList) := by
  obtain ⟨found,x,y,cx,cy,stepCode,t,u,v,hc⟩ := forHead_cases h
  have hplaced := changes_of_gives hc.counter (stays_place hc.storage (sees_touch hc.resolved line))
  have hst := (changes_touch (r := r) s found line).trans hplaced
  have hfirst := changes_of_gives hc.firstValue (stays_expr r first t)
  have hlast := changes_of_gives hc.lastValue (stays_expr r last u)
  have hlimit : v.Changes r { v with frame := v.frame.temp found.1.type } := .single (.temp v _)
  have hstep := hc.stepValue.changes
  have het := (he.touch found line).place hc.counter
  have heu := (known_expr first hc.firstValue het).1
  have hev := (known_expr last hc.lastValue heu).1
  have hx := sited_expr r first hc.firstValue (hfits.mono hst ((hlast.trans hlimit).trans hstep)) het
  have hy := sited_expr r last hc.lastValue
    (hfits.mono (hst.trans hfirst) (hlimit.trans hstep)) heu
  have hcounter := (hx.coerce cx).plain (b := [.store head.counter]) rfl
  have hbound := ((hcounter.append hy).coerce cy).plain (b := [.store (.slot head.limit)]) rfl
  rw [hc.code]
  exact hbound.append (sited_step hc.stepValue
    (hfits.from (((hst.trans hfirst).trans hlast).trans hlimit)) hev)

theorem sited_loop {head : ForHead} {again test : Label} {body : Code}
    {P : Access → Instr → Code → Prop} {xs ys : List Access} (hhead : head.code.Sited P xs)
    (hbody : body.Sited P ys) : (head.loop again test body).Sited P (xs ++ ys) := by
  have hround := (hhead.plain (b := [.branch test,.label again]) rfl).append hbody
  have hcount : Sited P [] ([.load head.counter] ++ head.step.load ++
      [.binary .add head.base,.store head.counter,.label test] ++
      head.step.test head.counter head.limit head.base ++ [.branchIf true again]) := by
    cases head.step <;> exact sited_plain rfl
  simpa [ForHead.loop] using hround.append hcount

theorem sited_condition {cond : Expr} (h : (condition r cond).Gives s code s')
    (hfits : Fits Γ r D s s') (he : s.Agrees env) :
    code.Sited (Site Γ r.depth) (cond.accesses env) := by
  obtain ⟨x,hx,_,rfl⟩ := gives_condition.mp h
  exact sited_expr r cond hx hfits he

end statements

mutual

/-- The accesses of a statement without diagnostics are those of its code. -/
theorem sited_stmt {Γ : Context} {D : Declaration → Prop} (r : Routine) : ∀ (x : Stmt)
    {env : ScopeStack} {s : State} {code : Code} {s' : State}, (stmt r x).Gives s code s' →
      s'.errors = s.errors → Fits Γ r D s s' → s.Agrees env → DeclaresOnly D x.flatten →
      code.Sited (Site Γ r.depth) (x.accesses r.setting env)
  | .declare line d, _, _, _, _, h, _, hfits, he, hd => by
    rw [stmt] at h
    rw [Stmt.accesses]
    exact sited_declaration h hfits he (hd line d (by simp [Stmt.flatten]))
  | .share _ names, _, _, _, _, h, _, _, he, _ => by
    rw [stmt] at h
    rw [Stmt.accesses,(agrees_shareAll (r := r) names h he).1]
    exact sited_plain rfl
  | .assign .., _, _, _, _, h, _, hfits, he, _ => sited_assign (by rwa [stmt] at h) hfits he
  | .call .., _, _, _, _, h, _, hfits, he, _ => by
    rw [Stmt.accesses]
    exact sited_callStmt (by rwa [stmt] at h) hfits he
  | .ifElse _ _ yes no, _, _, _, _, h, herr, hfits, he, hd => by
    obtain ⟨test,t,yesCode,u,noCode,ht,hyes,hno,rfl⟩ := gives_ifElse.mp h
    have hst := changes_of_gives ht (stays_condition (r := r))
    have hfresh := State.changes_labels (r := r) t (if no.isEmpty then 1 else 2)
    have htu := changes_of_gives hyes (stays_stmts r yes _)
    have hus := changes_of_gives hno (stays_stmts r no _)
    obtain ⟨hyesErr,hnoErr⟩ := errors_of_branches ht hyes hno herr
    have het := agrees_condition ht he
    have hcond := sited_condition ht (hfits.upTo ((hfresh.trans htu).trans hus)) he
    have hyes' := sited_stmts r yes hyes hyesErr (hfits.mono (hst.trans hfresh) hus) het
      (hd.mono (by simp [Stmt.flatten]))
    have hno' := sited_stmts r no hno hnoErr (hfits.from ((hst.trans hfresh).trans htu))
      (agrees_stmts yes hyes hyesErr het) (hd.mono (by simp [Stmt.flatten]))
    rw [Stmt.accesses]
    refine (((hcond.plain rfl).append hyes').append ?_).plain rfl
    cases no with
    | nil =>
      rw [Stmt.accessesAll]
      exact sited_plain rfl
    | cons => exact (sited_plain rfl).append hno'
  | .whileDo _ _ body, _, s, _, _, h, herr, hfits, he, hd => by
    obtain ⟨bodyCode,t,test,hbody,ht,rfl⟩ := gives_whileDo.mp h
    have hfresh := State.changes_labels (r := r) s 2
    have hst := changes_of_gives hbody (stays_stmts r body _)
    have hts := changes_of_gives ht (stays_condition (r := r))
    have hbodyErr := errors_of_body hbody ht herr
    have hbody' := sited_stmts r body hbody hbodyErr (hfits.mono hfresh hts) he
      (hd.mono (by simp [Stmt.flatten]))
    have hcond := sited_condition ht (hfits.from (hfresh.trans hst))
      (agrees_stmts body hbody hbodyErr he)
    have hstart : Sited (Site Γ r.depth) [] [.branch (s.nextLabel + 1),.label s.nextLabel] :=
      sited_plain rfl
    rw [Stmt.accesses]
    exact (((hstart.append hbody').plain rfl).append hcond).plain rfl
  | .repeatUntil _ body _, _, s, _, _, h, herr, hfits, he, hd => by
    obtain ⟨bodyCode,t,test,hbody,ht,rfl⟩ := gives_repeatUntil.mp h
    have hfresh := State.changes_labels (r := r) s 1
    have hst := changes_of_gives hbody (stays_stmts r body _)
    have hts := changes_of_gives ht (stays_condition (r := r))
    have hbodyErr := errors_of_body hbody ht herr
    have hbody' := sited_stmts r body hbody hbodyErr (hfits.mono hfresh hts) he
      (hd.mono (by simp [Stmt.flatten]))
    have hcond := sited_condition ht (hfits.from (hfresh.trans hst))
      (agrees_stmts body hbody hbodyErr he)
    have hlabel : Sited (Site Γ r.depth) [] [.label s.nextLabel] := sited_plain rfl
    rw [Stmt.accesses]
    exact ((hlabel.append hbody').append hcond).plain rfl
  | .forTo _ _ _ _ _ body, _, _, _, _, h, herr, hfits, he, hd => by
    obtain ⟨head,t,bodyCode,hh,hbody,rfl⟩ := gives_forTo.mp h
    have hst := changes_of_gives hh (stays_forHead (r := r))
    have hfresh := State.changes_labels (r := r) t 2
    have hts := changes_of_gives hbody (stays_stmts r body _)
    have hbodyErr := errors_of_forTo hh hbody herr
    have hhead := sited_forHead hh (hfits.upTo (hfresh.trans hts)) he
    have het := agrees_forHead hh he
    rw [Stmt.accesses]
    exact sited_loop hhead (sited_stmts r body hbody hbodyErr (hfits.from (hst.trans hfresh)) het
      (hd.mono (by simp [Stmt.flatten])))
  | .label .., _, _, _, _, h, _, _, _, _ => by
    rw [stmt] at h
    simp only [gives_bind,gives_pure] at h
    obtain ⟨l,_,_,rfl,_⟩ := h
    rw [Stmt.accesses]
    exact sited_plain rfl
  | .goto .., _, _, _, _, h, _, _, _, _ => by
    rw [stmt] at h
    simp only [gives_bind,gives_pure] at h
    obtain ⟨l,_,_,rfl,_⟩ := h
    rw [Stmt.accesses]
    exact sited_plain rfl
  | .ret .., _, _, _, _, h, _, hfits, he, _ => by
    rw [Stmt.accesses]
    exact sited_ret (by rwa [stmt] at h) hfits he
  | .print _ values, _, _, _, _, h, _, hfits, he, _ => by
    rw [Stmt.accesses]
    exact sited_printAll values (by rwa [stmt] at h) hfits he
  | .stop _, _, _, _, _, h, _, _, _, _ => by
    rw [stmt] at h
    rw [(gives_pure.mp h).1,Stmt.accesses]
    exact sited_plain rfl

theorem sited_stmts {Γ : Context} {D : Declaration → Prop} (r : Routine) : ∀ (xs : List Stmt)
    {env : ScopeStack} {s : State} {code : Code} {s' : State}, (stmts r xs).Gives s code s' →
      s'.errors = s.errors → Fits Γ r D s s' → s.Agrees env → DeclaresOnly D (Stmt.flattenAll xs) →
      code.Sited (Site Γ r.depth) (Stmt.accessesAll r.setting env xs)
  | [], _, _, _, _, h, _, _, _, _ => by
    rw [stmts] at h
    rw [(gives_pure.mp h).1,Stmt.accessesAll]
    exact sited_plain rfl
  | x :: rest, _, s, _, _, h, herr, hfits, he, hd => by
    obtain ⟨first,t,more,hx,hxErr,hm,hmErr,rfl⟩ := stmts_cons_ok h herr
    have hst := changes_of_gives hx (stays_stmt r x s)
    have hts := changes_of_gives hm (stays_stmts r rest t)
    have hfirst := sited_stmt r x hx hxErr (hfits.upTo hts) he (hd.mono (by simp [Stmt.flattenAll]))
    rw [Stmt.accessesAll]
    exact hfirst.append (sited_stmts r rest hm hmErr (hfits.from hst) (agrees_stmt x hx hxErr he)
      (hd.mono (by simp [Stmt.flattenAll])))

end

section bodies

variable {Γ : Context} {r : Routine} {D : Declaration → Prop} {env : ScopeStack} {s s' : State}
  {code : Code}

theorem sited_allocateAll (hr : r.depth = 0) : ∀ (ds : List Declaration) {s : State}
    {code : Code} {s' : State}, (allocateAll r ds).Gives s code s' → s'.errors = s.errors →
      Fits Γ r D s s' → s.Agrees env → (∀ d ∈ ds, D d) →
      code.Sited (Site Γ r.depth) (ds.flatMap (Declaration.accesses env))
  | [], _, _, _, h, _, _, _, _ => by
    rw [allocateAll] at h
    rw [(gives_pure.mp h).1]
    exact sited_plain rfl
  | d :: rest, s, _, _, h, herr, hfits, he, hd => by
    obtain ⟨first,t,more,hx,hm,rfl⟩ := gives_allocateAll_cons.mp h
    have hstays : (allocateGlobal r d).Stays r s := stays_allocateGlobal
    have hst := changes_of_gives hx (stays_recover hstays)
    have hts := changes_of_gives hm (stays_allocateAll r rest t)
    obtain ⟨hxErr,hmErr⟩ := State.errors_eq hst.errors hts.errors herr
    have hx' := gives_of_recover hx hstays hxErr
    rw [List.flatMap_cons]
    exact (sited_allocateGlobal hx' (hfits.upTo hts) he hr (hd d List.mem_cons_self)).append
      (sited_allocateAll hr rest hm hmErr (hfits.from hst) (agrees_allocateGlobal hx' he)
        fun e he => hd e (List.mem_cons_of_mem _ he))

theorem sited_bodyCode {step : Lower Code} {xs : List Access}
    (h : (bodyCode r step).Gives s code s')
    (hstep : ∀ {body : Code} {t : State}, step.Gives s body t → t.Changes r s' →
      body.Sited (Site Γ r.depth) xs) : code.Sited (Site Γ r.depth) xs := by
  obtain ⟨body,t,hb,h⟩ := gives_bodyCode.mp h
  rcases h with ⟨_,rfl,rfl⟩ | ⟨_,more,hm,rfl⟩
  · exact hstep hb .refl
  · refine (hstep hb (changes_of_gives hm stays_epilogue)).plain ?_
    cases epilogue_cases hm with
    | nothing | result => rfl
    | zero => cases r.returns <;> rfl

theorem sited_mainBody {u : SourceUnit} (hr : r.depth = 0) (h : (mainBody r u).Gives s code s')
    (herr : s'.errors = s.errors)
    (hfits : Fits Γ r (· ∈ u.globals ++ mainDeclarations u.main) s s') (he : s.Agrees env) :
    code.Sited (Site Γ r.depth) (u.globals.flatMap (Declaration.accesses env) ++
      Stmt.accessesAll r.setting env u.main) := by
  obtain ⟨arrays,t,part,ha,haErr,het,hb,hbErr,rfl⟩ := mainBody_ok h herr he
  have hst := changes_of_gives ha (stays_allocateAll r u.globals s)
  have hts := changes_of_gives hb (stays_stmts r u.main t)
  refine (sited_allocateAll hr u.globals ha haErr (hfits.upTo hts) he fun d hd => ?_).append
    (sited_stmts r u.main hb hbErr (hfits.from hst) het fun line d hd => ?_)
  · exact List.mem_append_left _ hd
  · exact List.mem_append_right _ (List.mem_filterMap.mpr ⟨_,hd,rfl⟩)

end bodies

section finished

variable {u : SourceUnit} {caseSensitive : Bool} {ground : ScopeStack} {final : List RoutineCode}
  {body : Body} {rc : RoutineCode}

/-- What is known of the places of a routine: the types of the variables of the outermost scope and, in
the given case, of its own slots. -/
def placesOf (language : Language) (final : List RoutineCode) (ground : ScopeStack) (frame : Frame)
    (typed : Prop) : Context :=
  contextOf language final (globals ground.global) (fun n t => typed → frame.type? n = some t)
    fun _ _ => True

theorem returning_placesOf {language : Language} {frame : Frame} {typed : Prop} (r : Routine) :
    Returning (placesOf language final ground frame typed) r :=
  ⟨fun _ => trivial,fun _ => trivial,fun _ _ _ => trivial⟩

/-- The code of a routine keeps to the places that are known of it, and its accesses are those of its
body. -/
structure Surveyed (language : Language) (final : List RoutineCode) (ground : ScopeStack)
    (typed : Prop) (body : Body) (rc : RoutineCode) : Prop where
  types : rc.code.Types (placesOf language final ground rc.frame typed) [] []
  sited : rc.code.Sited (Site (placesOf language final ground rc.frame typed) body.setting.depth)
    body.accesses

theorem Finished.surveyed {typed : Prop} (h : Finished u.language final ground u.routines body rc)
    (hground : Grounded u caseSensitive ground)
    (hname : typed → u.language = .fortran → body.routine.returns ≠ .void →
      body.routine.NamesApart caseSensitive) :
    body.setting.depth ≠ 0 ∧ Surveyed u.language final ground typed body rc := by
  obtain @⟨entry,p,b,code,s,htakes,hbefore,hstart,hbody,herrors,htop,hflat⟩ := h
  have hslots : Slots (fun n t => typed → s.frame.type? n = some t) b.routine (fun _ => True) b.start s :=
    fun h₁ hf h₂ ht => b.slots hground hbefore hstart hbody htop hflat (hname ht) h₁ hf h₂
  have hfits := b.fits hground hstart hslots (returning_placesOf _)
  rw [← htakes.setting]
  refine ⟨b.depth_ne_zero,b.types hground hstart hbody hslots (returning_placesOf _),?_⟩
  rw [← htakes.setting,Body.accesses,htakes.arrays,← htakes.setting]
  refine sited_bodyCode hbody fun hs hchanges => ?_
  have ht := changes_of_gives hs (stays_stmts _ body.routine.body _)
  have herr := (State.errors_eq ht.errors hchanges.errors (herrors.2.trans herrors.1.symm)).1
  exact sited_stmts b.routine body.routine.body hs herr (hfits.upTo hchanges) htakes.scopes
    fun _ _ _ => trivial

theorem FinishedMain.surveyed {typed : Prop} (h : FinishedMain u caseSensitive final ground rc)
    (hground : Grounded u caseSensitive ground) :
    Surveyed u.language final ground typed (program u caseSensitive) rc := by
  obtain @⟨p,b,code,s,_,hmain,_,_,hstart,hdepth,hbody,herrors⟩ := h
  have hslots : Slots (fun n t => typed → s.frame.type? n = some t) b.routine
      (· ∈ u.globals ++ mainDeclarations u.main) b.start s :=
    fun h₁ hf h₂ _ => slots_unnamed (b.housed_start hdepth) rfl h₁ hf h₂
  have hfits := b.fits hground hstart hdepth hslots (returning_placesOf _)
  have hagrees : b.start.Agrees (outermost u caseSensitive) := by
    rw [hmain]
    rfl
  refine ⟨b.types hground hstart hdepth hbody hslots (returning_placesOf _),?_⟩
  refine sited_bodyCode hbody fun hs hchanges => ?_
  have ht := changes_of_gives hs (stays_mainBody _ u _)
  have herr := (State.errors_eq ht.errors hchanges.errors (herrors.2.trans herrors.1.symm)).1
  exact sited_mainBody rfl hs herr (hfits.upTo hchanges) hagrees

end finished

end Lowering
end StackCompiler
