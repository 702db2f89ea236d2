import StackCompiler.Proofs.LoweringCases
import StackCompiler.Proofs.LoweringChanges
import StackCompiler.Proofs.LoweredDiscipline
import StackCompiler.Proofs.OperandTypes

/-! The types of the values that lowered code handles.
An expression leaves a value of its type on whatever stack it finds, and a statement starts and ends
with an empty stack. What has to be known of places and routines is asked only of those that the
lowering comes across between its first and its last state. -/
namespace StackCompiler.Lowering

open Lower

/-- A place for values of a type, as the lowering comes by it in one state and leaves another. Where
room is made in the outermost scope, the declaration is one of the given ones. -/
inductive Found (r : Routine) (D : Declaration → Prop) : State → Place → Ty → State → Prop
  | stored {s s' : State} {name : String} {line : Line} {found : Symbol × Nat} {p : Place}
    (hr : s.scopes.resolve name = some found) (hst : found.1.hasStorage = true)
    (hp : (place r found line).Gives (s.touch found line) p s') : Found r D s p found.1.type s'
  | array {s : State} {d : Declaration} {symbol : Symbol} {scopes : ScopeStack} (hr : r.depth ≠ 0)
    (hd : declare d s.scopes = (.ok symbol,scopes)) (hn : needsRoom d = true) :
    Found r D s (.slot (s.frame.localVar symbol.key symbol.type).1) symbol.type
      ({ s with scopes : State }.withLocal symbol.key symbol.type)
  | room {s : State} {d : Declaration} (hr : r.depth = 0) (hd : D d) (hn : needsRoom d = true) :
    Found r D s (.global (s.scopes.normalize d.name)) d.type s
  | temp (s : State) (t : Ty) :
    Found r D s (.slot s.frame.length) t { s with frame := s.frame.temp t }
  | result {s : State} {name : String} (hn : r.resultName = some name) :
    Found r D s (.slot (s.frame.localVar name (.scalar r.returns)).1) (.scalar r.returns)
      (s.withLocal name (.scalar r.returns))
  | resultRead {s : State} {name : String} {line : Line} {found : Symbol × Nat}
    (hr : s.scopes.resolve name = some found) (hc : found.1.cls = .function)
    (hn : r.resultName = some found.1.key) :
    Found r D s (.slot (s.frame.localVar found.1.key (.scalar r.returns)).1) found.1.type
      ((s.touch found line).withLocal found.1.key (.scalar r.returns))

/-- The context admits the stacks with which the routine returns. Where its type has no zero, it may
come to its end with an empty stack. -/
structure Returning (Γ : Context) (r : Routine) : Prop where
  nothing : r.returns = .void → Γ.returns false []
  value : r.returns ≠ .void → Γ.returns true [.scalar r.returns]
  empty : r.returns ≠ .void → r.resultName = none → Literal.zero r.returns = none → Γ.returns true []

/-- The context knows what the lowering of a routine comes across between two states. -/
structure Fits (Γ : Context) (r : Routine) (D : Declaration → Prop) (s s' : State) : Prop where
  language : Γ.language = r.language
  place : ∀ {t t' : State} {p : Place} {type : Ty}, s.Changes r t → Found r D t p type t' →
    t'.Changes r s' → Γ.place p type
  routine : ∀ {t : State} {name : String} {found : Symbol × Nat}, s.Changes r t →
    t.scopes.resolveRoutine name = some found → found.1.isRoutine = true →
    Γ.routine (found.1.entry.getD found.1.key) found.1.params found.1.type
  constant : ∀ {t : State} {name : String} {found : Symbol × Nat} {l : Literal}, s.Changes r t →
    t.scopes.resolve name = some found → found.1.cls = .constant → found.1.value = some l →
    found.1.type = .scalar l.base
  returns : Returning Γ r

section fits

variable {Γ : Context} {r : Routine} {D : Declaration → Prop} {s s' t t' : State}

theorem Fits.mono (h : Fits Γ r D s s') (hs : s.Changes r t) (hs' : t'.Changes r s') :
    Fits Γ r D t t' where
  language := h.language
  place h₁ hf h₂ := h.place (hs.trans h₁) hf (h₂.trans hs')
  routine h₁ := h.routine (hs.trans h₁)
  constant h₁ := h.constant (hs.trans h₁)
  returns := h.returns

theorem Fits.from (h : Fits Γ r D s s') (hs : s.Changes r t) : Fits Γ r D t s' := h.mono hs .refl

theorem Fits.upTo (h : Fits Γ r D s s') (hs : t.Changes r s') : Fits Γ r D s t := h.mono .refl hs

theorem changes_touch (s : State) (found : Symbol × Nat) (line : Line) :
    s.Changes r (s.touch found line) :=
  .single (.touch s found line)

theorem sees_touch {name : String} {found : Symbol × Nat} (h : s.scopes.resolve name = some found)
    (line : Line) : (s.touch found line).Sees found :=
  sees_of_resolve (gives_resolve.mpr ⟨h,rfl⟩)

theorem Found.changes {p : Place} {type : Ty} (h : Found r D s p type s') : s.Changes r s' := by
  cases h with
  | stored hr hst hp =>
    exact (changes_touch s _ _).trans (changes_of_gives hp (stays_place hst (sees_touch hr _)))
  | array hr hd hn =>
    obtain ⟨hmem,hcls⟩ := declare_eq_ok hd
    refine .tail (.single (.declare hr hd trivial)) (.slot ?_ fun _ => List.mem_map_of_mem hmem)
    simp only [needsRoom,Bool.and_eq_true,beq_iff_eq] at hn
    simp [Symbol.hasStorage,hcls,hn.1]
  | room => exact .refl
  | temp => exact .single (.temp s type)
  | result hn => exact .single (.result hn)
  | resultRead hr hc hn => exact (changes_touch s _ _).tail (.result hn)

end fits

section calls

variable {Γ : Context} {r : Routine} {D : Declaration → Prop} {s s' : State} {line : Line}
  {name : String}

theorem CalleeCase.changes {p : CallTarget × Symbol} {t : State}
    (h : CalleeCase r name line s p t) : s.Changes r t := by
  cases h with
  | routine => exact changes_touch s _ line
  | intrinsic => exact .refl

theorem CalleeCase.call {target : CallTarget} {signature : Symbol} {t : State}
    (h : CalleeCase r name line s (target,signature) t) (hfits : Fits Γ r D s s') :
    Γ.call target signature.params signature.type := by
  cases h with
  | routine hr hf => exact hfits.routine .refl hr hf
  | intrinsic _ hi =>
    change Runtime Γ.language _ _ _
    rw [hfits.language]
    exact .intrinsic (List.mem_of_find?_eq_some hi)

/-- The arguments of a call, each with its coercion, fit the parameters. -/
theorem types_argumentCode {routine : Symbol} : ∀ {params : List Ty} {values : List Value}
    {i : Nat} {cs : List Coercion},
    Typing.arguments routine line i params (values.map Value.type) = .ok cs →
    params.length = values.length → (∀ x ∈ values, Γ.Pushes x.code x.type) →
    ∃ args, List.Forall₂ Ty.Admits params args ∧
      ∀ st, (argumentCode values cs).Types Γ st (args.reverse ++ st)
  | [], [], _, cs, h, _, _ => by
    cases h
    exact ⟨[],.nil,fun st => .nil st⟩
  | param :: params, x :: values, i, cs, h, hlen, hvalues => by
    rw [List.map_cons,Typing.arguments] at h
    split at h
    · cases h
    · next c hc =>
      cases hrest : Typing.arguments routine line (i + 1) params (values.map Value.type) with
      | error =>
        rw [hrest] at h
        cases h
      | ok rest =>
        rw [hrest] at h
        cases h
        obtain ⟨t,ht,hcode⟩ := Typing.types_assign hc
        obtain ⟨args,hargs,hmore⟩ := types_argumentCode hrest (by simpa using hlen)
          fun y hy => hvalues y (List.mem_cons_of_mem _ hy)
        refine ⟨t :: args,.cons ht hargs,fun st => ?_⟩
        have hfirst := (hvalues x List.mem_cons_self st).append (hcode Γ st)
        have hall := hfirst.append (hmore (t :: st))
        simpa [argumentCode] using hall

theorem types_call {args : Lower (List Value)} {p : Code × Option Ty} {target : CallTarget}
    {signature : Symbol} {t : State} {values : List Value} {coercions : List Coercion}
    (h : CallCase r name line args s p s' target signature t values coercions)
    (hfits : Fits Γ r D s s') (hvalues : ∀ x ∈ values, Γ.Pushes x.code x.type) (st : List Ty) :
    p.1.Types Γ st (if signature.type.isVoid then st else signature.type :: st) := by
  have htyping := h.typing
  unfold Typing.call at htyping
  split at htyping
  · cases htyping
  · split at htyping
    · cases htyping
    · next hlen =>
      have hlen' : signature.params.length = values.length := by simpa using hlen
      obtain ⟨args,hargs,hcode⟩ := types_argumentCode htyping hlen' hvalues
      rw [h.code,← hlen']
      exact (hcode st).snoc (.call (h.callee.call hfits) hargs st)

theorem pushes_of_callValue {args : Lower (List Value)} {v : Value}
    (h : (callValue r name line args).Gives s v s') (hfits : Fits Γ r D s s')
    (hargs : ∀ {t values}, s.Changes r t → args.Gives t values s' →
      ∀ x ∈ values, Γ.Pushes x.code x.type) : Γ.Pushes v.code v.type := by
  obtain ⟨target,signature,t,values,coercions,hvoid,htype,hc⟩ := callValue_cases h
  intro st
  have hcall := types_call hc hfits (hargs hc.callee.changes hc.args) st
  rw [hvoid] at hcall
  rw [htype]
  exact hcall

theorem pushes_of_nothing {t : State} {values : List Value}
    (h : (pure [] : Lower (List Value)).Gives t values s') :
    ∀ x ∈ values, Γ.Pushes x.code x.type := by
  rw [(gives_pure.mp h).1]
  intro x hx
  cases hx

theorem pushes_of_ident {v : Value} (h : (ident r name line).Gives s v s')
    (hfits : Fits Γ r D s s') : Γ.Pushes v.code v.type := by
  cases ident_cases h with
  | intrinsic _ hc => exact pushes_of_callValue hc hfits fun _ => pushes_of_nothing
  | @constant symbol depth l _ hr hc hl =>
    intro st
    have htype : symbol.type = .scalar l.base := hfits.constant .refl hr hc hl
    rw [htype]
    exact .one (.const l st)
  | stored _ hr hc hp =>
    exact fun st => .one (.load (hfits.place .refl (.stored hr hc hp) .refl) st)
  | result _ hr hc hn =>
    exact fun st => .one (.load (hfits.place .refl (.resultRead hr hc hn) .refl) st)
  | call _ _ _ _ hc =>
    exact pushes_of_callValue hc (hfits.from (changes_touch s _ line)) fun _ => pushes_of_nothing

end calls

theorem replicate_append_cons {α : Type} (n : Nat) (a : α) (st : List α) :
    List.replicate n a ++ a :: st = List.replicate (n + 1) a ++ st := by
  rw [List.replicate_succ',List.append_assoc]
  rfl

mutual

theorem pushes_of_expr {Γ : Context} {D : Declaration → Prop} (r : Routine) : ∀ (e : Expr)
    {s : State} {v : Value} {s' : State}, (expr r e).Gives s v s' → Fits Γ r D s s' →
      Γ.Pushes v.code v.type
  | .literal _ l, _, _, _, h, _ => by
    rw [expr] at h
    obtain ⟨rfl,_⟩ := gives_pure.mp h
    exact fun st => .one (.const l st)
  | .ident _ _, _, _, _, h, hfits => pushes_of_ident (by rwa [expr] at h) hfits
  | .index line _ indices, s, _, _, h, hfits => by
    cases index_cases h with
    | intrinsic _ hc =>
      exact pushes_of_callValue hc hfits fun hs hv => pushes_of_exprs r indices hv (hfits.from hs)
    | @call found _ _ _ _ _ hc =>
      have hfits' := hfits.from (changes_touch s found line)
      exact pushes_of_callValue hc hfits' fun hs hv => pushes_of_exprs r indices hv (hfits'.from hs)
    | @element found p code t _ _ hr _ hp hs =>
      obtain ⟨hst,_,hrank,hplace⟩ := gives_arrayPlace.mp hp
      have htouch := changes_touch (r := r) s found line
      have hst' := changes_of_gives hplace (stays_place hst (sees_touch hr line))
      have hsub := changes_of_gives hs (stays_subscripts r _ _ _ _ _ _ _)
      have harray : Γ.place p found.1.type := hfits.place .refl (.stored hr hst hplace) hsub
      intro st
      have hcode := types_of_subscripts r indices hs (hfits.from (htouch.trans hst')) harray hrank
        (by simp [Ty.rank]) st
      refine hcode.snoc ?_
      rw [← hrank]
      exact .loadElement harray st
  | .unary _ op operand, _, _, _, h, hfits => by
    obtain ⟨x,base,hx,ht,rfl⟩ := gives_unary.mp h
    have hoperand := pushes_of_expr r operand hx hfits
    rw [Typing.eq_of_unary ht] at hoperand
    exact fun st => (hoperand st).snoc (.unary op base st)
  | .binary _ left op right, _, _, _, h, hfits => by
    obtain ⟨x,t,y,typing,hx,hy,ht,rfl⟩ := gives_binary.mp h
    have hst := changes_of_gives hx (stays_expr r left _)
    have hts := changes_of_gives hy (stays_expr r right _)
    have hleft := pushes_of_expr r left hx (hfits.upTo hts)
    have hright := pushes_of_expr r right hy (hfits.from hst)
    obtain ⟨hresult,hcoerce⟩ := Typing.types_binary ht
    intro st
    have hx' := (hleft st).append (hcoerce Γ st).1
    have hy' := (hx'.append (hright _)).append (hcoerce Γ (.scalar typing.operand :: st)).2
    rw [hresult]
    exact hy'.snoc (.binary typing.op typing.operand st)
  | .call _ _ args, _, _, _, h, hfits => by
    rw [expr] at h
    exact pushes_of_callValue h hfits fun hs hv => pushes_of_exprs r args hv (hfits.from hs)

theorem pushes_of_exprs {Γ : Context} {D : Declaration → Prop} (r : Routine) :
    ∀ (es : List Expr) {s : State} {values : List Value} {s' : State},
      (exprs r es).Gives s values s' → Fits Γ r D s s' → ∀ x ∈ values, Γ.Pushes x.code x.type
  | [], _, _, _, h, _ => by
    rw [exprs] at h
    exact pushes_of_nothing h
  | e :: rest, _, _, _, h, hfits => by
    obtain ⟨x,t,xs,hx,hxs,rfl⟩ := gives_exprs_cons.mp h
    have hst := changes_of_gives hx (stays_expr r e _)
    have hts := changes_of_gives hxs (stays_exprs r rest _)
    intro y hy
    rcases List.mem_cons.mp hy with rfl | hy
    · exact pushes_of_expr r e hx (hfits.upTo hts)
    · exact pushes_of_exprs r rest hxs (hfits.from hst) y hy

theorem types_of_subscripts {Γ : Context} {D : Declaration → Prop} (r : Routine) :
    ∀ (indices : List Expr) {name : String} {array : Place} {line : Line} {dim : Nat}
      {extents : List Extent} {type : Ty} {s : State} {code : Code} {s' : State},
      (subscripts r name array line dim extents indices).Gives s code s' → Fits Γ r D s s' →
      Γ.place array type → extents.length = indices.length → dim + extents.length = type.rank →
      ∀ st, code.Types Γ st (.replicate indices.length (.scalar .integer) ++ st)
  | [], _, _, _, _, _, _, _, _, _, h, _, _, _, _ => by
    rw [subscripts] at h
    rw [(gives_pure.mp h).1]
    exact fun st => .nil st
  | _ :: _, _, _, _, _, [], _, _, _, _, _, _, _, hlen, _ => by cases hlen
  | index :: rest, _, array, _, dim, extent :: extents, type, _, _, _, h, hfits, harray, hlen, hrank =>
    by
    obtain ⟨x,t,more,hx,htyping,_,hm,rfl⟩ := gives_subscripts_cons.mp h
    have hst := changes_of_gives hx (stays_expr r index _)
    have hts := changes_of_gives hm (stays_subscripts r _ _ _ _ _ _ _)
    have hvalue := pushes_of_expr r index hx (hfits.upTo hts)
    rw [Typing.eq_of_expect htyping] at hvalue
    rw [List.length_cons] at hrank
    have hmore := types_of_subscripts r rest hm (hfits.from hst) harray (by simpa using hlen)
      (by omega)
    have hcheck : ∀ st, (boundsCheck array dim extent).Types Γ (.scalar .integer :: st)
        (.scalar .integer :: st) := by
      intro st
      cases extent with
      | fixed => exact .nil _
      | dynamic => exact .one (.checkBounds harray (by omega) st)
    intro st
    rw [List.length_cons,← replicate_append_cons]
    exact ((hvalue st).append (hcheck st)).append (hmore _)

end

section statements

variable {Γ : Context} {r : Routine} {D : Declaration → Prop} {s s' : State} {line : Line}
  {name : String} {code : Code}

theorem types_of_extents {d : Declaration} : ∀ (dimensions : List Extent) {sizes : List Expr}
    {s : State} {code : Code} {s' : State}, (extents r d dimensions sizes).Gives s code s' →
      Fits Γ r D s s' → ∀ st, code.Types Γ st (.replicate dimensions.length (.scalar .integer) ++ st)
  | [], _, _, _, _, h, _ => by
    rw [extents] at h
    rw [(gives_pure.mp h).1]
    exact fun st => .nil st
  | .fixed n :: rest, _, _, _, _, h, hfits => by
    obtain ⟨more,hm,rfl⟩ := gives_extents_fixed.mp h
    intro st
    rw [List.length_cons,← replicate_append_cons]
    exact .cons (.const _ st) (types_of_extents rest hm hfits _)
  | .dynamic :: _, [], _, _, _, h, _ => by
    rw [extents] at h
    exact absurd h gives_fail
  | .dynamic :: rest, size :: sizes, _, _, _, h, hfits => by
    obtain ⟨x,t,more,hx,htyping,hm,rfl⟩ := gives_extents_dynamic.mp h
    have hst := changes_of_gives hx (stays_expr r size _)
    have hts := changes_of_gives hm (stays_extents r d rest sizes t)
    have hvalue := pushes_of_expr r size hx (hfits.upTo hts)
    rw [Typing.eq_of_expect htyping] at hvalue
    intro st
    rw [List.length_cons,← replicate_append_cons]
    exact (hvalue st).append (types_of_extents rest hm (hfits.from hst) _)

theorem types_of_allocate {d : Declaration} {array : Place} {type : Ty}
    (h : (allocate r d array).Gives s code s') (hfits : Fits Γ r D s s')
    (harray : Γ.place array type) (htype : type = d.type) : code.Types Γ [] [] := by
  obtain ⟨sizes,hs,rfl⟩ := gives_allocate.mp h
  subst htype
  refine (types_of_extents d.dimensions hs hfits []).snoc ?_
  exact .alloc (t := d.type) harray []

theorem types_of_allocateGlobal {d : Declaration} (h : (allocateGlobal r d).Gives s code s')
    (hfits : Fits Γ r D s s') (hr : r.depth = 0) (hd : D d) : code.Types Γ [] [] := by
  rcases gives_allocateGlobal.mp h with ⟨hn,h⟩ | ⟨_,rfl,_⟩
  · have hchanges := changes_of_gives h (stays_allocate (r := r))
    exact types_of_allocate h hfits (hfits.place .refl (.room hr hd hn) hchanges) rfl
  · exact .nil []

theorem types_of_declaration {d : Declaration} (h : (declaration r d).Gives s code s')
    (hfits : Fits Γ r D s s') (hd : D d) : code.Types Γ [] [] := by
  cases declaration_cases h with
  | global hr h => exact types_of_allocateGlobal h hfits hr hd
  | plain => exact .nil []
  | @array symbol scopes _ _ hr hdecl hn h =>
    obtain ⟨new,hnew,rfl,_,rfl⟩ := declare_cases hdecl
    have htype := (declared_eq_ok hnew).2.1
    have hfound : Found r D s _ _ _ := .array hr hdecl hn
    have hchanges := changes_of_gives h (stays_allocate (r := r))
    exact types_of_allocate h (hfits.from hfound.changes) (hfits.place .refl hfound hchanges) htype

theorem types_of_shareAll : ∀ (names : List String) {s : State} {code : Code} {s' : State},
    (shareAll line names).Gives s code s' → code.Types Γ [] []
  | [], _, _, _, h => by
    rw [shareAll] at h
    rw [(gives_pure.mp h).1]
    exact .nil []
  | _ :: rest, _, _, _, h => by
    obtain ⟨symbol,scopes,_,hr⟩ := gives_shareAll_cons.mp h
    exact types_of_shareAll rest hr

theorem types_of_assign {target : Target} {value : Expr}
    (h : (assign r target value line).Gives s code s') (hfits : Fits Γ r D s s') :
    code.Types Γ [] [] := by
  cases assign_cases h with
  | @result found x c t hr hc hi hn hx ht =>
    have htouch := changes_touch (r := r) s found line
    have hexpr := changes_of_gives hx (stays_expr r value _)
    have hslot : t.Changes r (t.withLocal found.1.key (.scalar r.returns)) := .single (.result hn)
    have hvalue := pushes_of_expr r value hx (hfits.mono htouch hslot)
    have hplace := hfits.place (htouch.trans hexpr) (.result hn) .refl
    exact ((hvalue []).append (Typing.types_assign_scalar ht rfl Γ [])).snoc (.store hplace rfl [])
  | @stored found p x c t _ hr hc hi hp hx ht ha =>
    have htouch := changes_touch (r := r) s found line
    have hsees := sees_touch hr line
    have hplaced := changes_of_gives hp (stays_place hc hsees)
    have hexpr := changes_of_gives hx (stays_expr r value _)
    have hscalar : found.1.type.isScalar = true := by simpa [Ty.isArray] using ha
    have hvalue := pushes_of_expr r value hx (hfits.from (htouch.trans hplaced))
    have hplace := hfits.place .refl (.stored hr hc hp) hexpr
    exact ((hvalue []).append (Typing.types_assign_scalar ht hscalar Γ [])).snoc
      (.store hplace hscalar [])
  | @element found p indices x c t u _ hr hc hi hp hs hx ht =>
    obtain ⟨_,_,hrank,hp'⟩ := gives_arrayPlace.mp hp
    have htouch := changes_touch (r := r) s found line
    have hsees := sees_touch hr line
    have hplaced := changes_of_gives hp' (stays_place hc hsees)
    have hsub := changes_of_gives hs (stays_subscripts r _ _ _ _ _ _ _)
    have hexpr := changes_of_gives hx (stays_expr r value _)
    have hplace := hfits.place .refl (.stored hr hc hp') (hsub.trans hexpr)
    have hindices := types_of_subscripts r target.indices hs
      (hfits.mono (htouch.trans hplaced) hexpr) hplace hrank (by simp [Ty.rank]) []
    have hvalue := pushes_of_expr r value hx (hfits.from ((htouch.trans hplaced).trans hsub))
    have hcode := (hindices.append (hvalue _)).append
      (Typing.types_assign_scalar ht rfl Γ (.replicate target.indices.length (.scalar .integer) ++ []))
    refine hcode.snoc ?_
    rw [← hrank]
    exact .storeElement hplace []

theorem types_of_callStmt {args : List Expr} (h : (callStmt r name args line).Gives s code s')
    (hfits : Fits Γ r D s s') : code.Types Γ [] [] := by
  obtain ⟨p,hp,rfl⟩ := gives_callStmt.mp h
  obtain ⟨target,signature,t,values,coercions,hc⟩ := call_cases hp
  have hvalues := pushes_of_exprs r args hc.args (hfits.from hc.callee.changes)
  have hcall := types_call hc hfits hvalues []
  rw [hc.type]
  cases hvoid : signature.type.isVoid with
  | true =>
    rw [hvoid] at hcall
    exact hcall
  | false =>
    rw [hvoid] at hcall
    exact hcall.snoc (.pop _ [])

theorem types_of_ret {value : Option Expr} (h : (ret r value line).Gives s code s')
    (hfits : Fits Γ r D s s') : code.Types Γ [] [] := by
  cases ret_cases h with
  | nothing hr => exact .one (.ret (hfits.returns.nothing hr))
  | result hr hn =>
    exact .cons (.load (hfits.place .refl (.result hn) .refl) []) (.one (.ret (hfits.returns.value hr)))
  | value hr hx ht =>
    have hvalue := pushes_of_expr r _ hx hfits
    exact ((hvalue []).append (Typing.types_assign_scalar ht rfl Γ [])).snoc
      (.ret (hfits.returns.value hr))

theorem types_runtime {params args : List Ty} (h : Runtime Γ.language name params (.scalar .void))
    (ha : List.Forall₂ Ty.Admits params args) :
    Instr.Types Γ (.call (.runtime name) params.length false) args.reverse [] := by
  have hcall : Γ.call (.runtime name) params (.scalar .void) := h
  have hi := Instr.Types.call hcall ha []
  rwa [List.append_nil] at hi

theorem types_of_printAll : ∀ (values : List Expr) {s : State} {code : Code} {s' : State},
    (printAll r line values).Gives s code s' → Fits Γ r D s s' → code.Types Γ [] []
  | [], _, _, _, h, _ => by
    rw [printAll] at h
    rw [(gives_pure.mp h).1]
    exact .one (types_runtime .newline .nil)
  | e :: rest, _, _, _, h, hfits => by
    obtain ⟨x,t,printer,more,hx,hprinter,hm,rfl⟩ := gives_printAll_cons.mp h
    have hst := changes_of_gives hx (stays_expr r e _)
    have hts := changes_of_gives hm (stays_printAll r line rest t)
    have hvalue := pushes_of_expr r e hx (hfits.upTo hts)
    have hself : List.Forall₂ Ty.Admits [x.type] [x.type] := by
      refine .cons ⟨rfl,?_⟩ .nil
      exact List.forall₂_same.mpr fun extent _ => by cases extent <;> trivial
    exact (hvalue []).append (.cons (types_runtime (.printer hprinter) hself)
      (types_of_printAll rest hm (hfits.from hst)))

/-- A constant that may be assigned to a number has the number's type once it is promoted. -/
theorem base_promote {type : Ty} {l : Literal} {c : Coercion}
    (h : Typing.assign type (.scalar l.base) line = .ok c) (hs : type.isScalar = true) :
    (if type.base = .double then l.promote else l).base = type.base := by
  rcases Typing.assign_scalar_cases h hs with ⟨_,rfl⟩ | ⟨_,hl,rfl⟩
  · cases l <;> rfl
  · cases l <;> cases hl
    rfl

/-- What the code around the body of a counting loop needs: the counter, the limit and the step have
the type of the counter. -/
structure ForHead.Typed (Γ : Context) (head : ForHead) : Prop where
  numeric : head.base.isNumeric = true
  counter : Γ.place head.counter (.scalar head.base)
  limit : Γ.place (.slot head.limit) (.scalar head.base)
  step : match head.step with
    | .constant l _ => l.base = head.base
    | .dynamic n => Γ.place (.slot n) (.scalar head.base)

theorem ForHead.Typed.load {head : ForHead} (h : head.Typed Γ) :
    Γ.Pushes head.step.load (.scalar head.base) := by
  intro st
  have hstep := h.step
  cases hs : head.step with
  | constant l ascending =>
    rw [hs] at hstep
    rw [← show l.base = head.base from hstep]
    exact .one (.const l st)
  | dynamic n =>
    rw [hs] at hstep
    exact .one (.load hstep st)

theorem base_zero {base : BaseType} (h : base.isNumeric = true) :
    ((Literal.zero base).getD (.integer 0)).base = base := by
  cases base <;> first | rfl | cases h

/-- The sign of a step together with the bound that goes with it is a truth value. -/
theorem pushes_signed {counter : Place} {limit slot : Slot} {base : BaseType} (sign bound : BinaryOp)
    (hnum : base.isNumeric = true) (hcounter : Γ.place counter (.scalar base))
    (hlimit : Γ.place (.slot limit) (.scalar base)) (hslot : Γ.place (.slot slot) (.scalar base))
    (hsign : sign.isComparison = true) (hbound : bound.isComparison = true) :
    Γ.Pushes (Step.signed counter limit slot base sign bound) (.scalar .boolean) := by
  intro st
  have hfirst : BinaryOp.result sign base = .boolean := if_pos hsign
  have hsecond : BinaryOp.result bound base = .boolean := if_pos hbound
  have hzero := Instr.Types.const (Γ := Γ) ((Literal.zero base).getD (.integer 0))
    (.scalar base :: st)
  rw [base_zero hnum] at hzero
  have hsigned := Instr.Types.binary (Γ := Γ) sign base st
  have hbounded := Instr.Types.binary (Γ := Γ) bound base (.scalar .boolean :: st)
  rw [hfirst] at hsigned
  rw [hsecond] at hbounded
  refine .cons (.load hslot st) (.cons hzero (.cons hsigned (.cons (.load hcounter _) ?_)))
  exact .cons (.load hlimit _) (.cons hbounded (.one (.binary .and .boolean st)))

theorem ForHead.Typed.test {head : ForHead} (h : head.Typed Γ) :
    Γ.Pushes (head.step.test head.counter head.limit head.base) (.scalar .boolean) := by
  intro st
  have hstep := h.step
  cases hs : head.step with
  | constant l ascending =>
    have hop : BinaryOp.result (if ascending then .le else .ge) head.base = .boolean := by
      cases ascending <;> rfl
    have hcompare := Instr.Types.binary (Γ := Γ) (if ascending then .le else .ge) head.base st
    rw [hop] at hcompare
    exact .cons (.load h.counter st) (.cons (.load h.limit _) (.one hcompare))
  | dynamic n =>
    rw [hs] at hstep
    have hup := pushes_signed .ge .le h.numeric h.counter h.limit hstep rfl rfl st
    have hdown := pushes_signed .lt .ge h.numeric h.counter h.limit hstep rfl rfl
      (.scalar .boolean :: st)
    exact (hup.append hdown).snoc (.binary .or .boolean st)

theorem types_of_loop {head : ForHead} {again test : Label} {body : Code} (h : head.Typed Γ)
    (hhead : head.code.Types Γ [] []) (hbody : body.Types Γ [] []) :
    (head.loop again test body).Types Γ [] [] := by
  have hop : BinaryOp.result .add head.base = head.base := rfl
  have hadd := Instr.Types.binary (Γ := Γ) .add head.base []
  rw [hop] at hadd
  have hstart : Code.Types Γ [.branch test,.label again] [] [] :=
    .cons (.branch test) (.one (.label again))
  have hcount := (Code.Types.one (.load h.counter [])).append (h.load _)
  have hstore : Code.Types Γ [.binary .add head.base,.store head.counter]
      [.scalar head.base,.scalar head.base] [] := .cons hadd (.one (.store h.counter rfl []))
  have hround := (((hhead.append hstart).append hbody).append hcount).append hstore
  have htest := (hround.snoc (.label test)).append (h.test [])
  simpa [ForHead.loop] using htest.snoc (.branchIf true again)

theorem StepCase.changes {type : Ty} {step : Option Expr} {p : Code × Step}
    (h : StepCase r type s step p s') : s.Changes r s' := by
  cases h with
  | one => exact .refl
  | constant => exact .refl
  | dynamic _ hx _ =>
    exact (changes_of_gives hx (stays_expr r _ s)).tail (.temp _ type)

theorem types_of_step {type : Ty} {step : Option Expr} {p : Code × Step}
    (h : StepCase r type s step p s') (hfits : Fits Γ r D s s') (hnum : type.isNumeric = true) :
    p.1.Types Γ [] [] ∧ match p.2 with
      | .constant l _ => l.base = type.base
      | .dynamic n => Γ.place (.slot n) type := by
  obtain ⟨hs,hbase⟩ := Bool.and_eq_true_iff.mp hnum
  cases h with
  | one =>
    refine ⟨.nil [],?_⟩
    cases hb : type.base <;> rw [hb] at hbase <;> first | rfl | cases hbase
  | constant _ ht => exact ⟨.nil [],base_promote ht hs⟩
  | @dynamic e x c t _ hx ht =>
    have hexpr := changes_of_gives hx (stays_expr r e s)
    have hslot : t.Changes r { t with frame := t.frame.temp type } := .single (.temp t type)
    have hplace := hfits.place hexpr (.temp t type) .refl
    have hvalue := pushes_of_expr r e hx (hfits.upTo hslot)
    refine ⟨?_,hplace⟩
    exact ((hvalue []).append (Typing.types_assign_scalar ht hs Γ [])).snoc (.store hplace hs [])

theorem types_of_forHead {first last : Expr} {step : Option Expr} {head : ForHead}
    (h : (forHead r name first last step line).Gives s head s') (hfits : Fits Γ r D s s') :
    head.Typed Γ ∧ head.code.Types Γ [] [] := by
  obtain ⟨found,x,y,cx,cy,stepCode,t,u,v,hc⟩ := forHead_cases h
  have htype : found.1.type = .scalar head.base := by
    rw [hc.base]
    exact Ty.eq_scalar (Bool.and_eq_true_iff.mp hc.numeric).1
  have hscalar : found.1.type.isScalar = true := (Bool.and_eq_true_iff.mp hc.numeric).1
  have htouch := changes_touch (r := r) s found line
  have hplaced := changes_of_gives hc.counter (stays_place hc.storage (sees_touch hc.resolved line))
  have hfirst := changes_of_gives hc.firstValue (stays_expr r first t)
  have hlast := changes_of_gives hc.lastValue (stays_expr r last u)
  have hlimit : v.Changes r { v with frame := v.frame.temp found.1.type } := .single (.temp v _)
  have hstep := hc.stepValue.changes
  have hst := htouch.trans hplaced
  have hcounter : Γ.place head.counter found.1.type :=
    hfits.place .refl (.stored hc.resolved hc.storage hc.counter)
      (((hfirst.trans hlast).trans hlimit).trans hstep)
  have hslot : Γ.place (.slot head.limit) found.1.type := by
    rw [hc.limit]
    exact hfits.place ((hst.trans hfirst).trans hlast) (.temp v found.1.type) hstep
  obtain ⟨hstepCode,hstepType⟩ := types_of_step hc.stepValue
    (hfits.from (((hst.trans hfirst).trans hlast).trans hlimit)) hc.numeric
  have hx := pushes_of_expr r first hc.firstValue
    (hfits.mono hst ((hlast.trans hlimit).trans hstep))
  have hy := pushes_of_expr r last hc.lastValue
    (hfits.mono (hst.trans hfirst) (hlimit.trans hstep))
  refine ⟨⟨?_,htype ▸ hcounter,htype ▸ hslot,?_⟩,?_⟩
  · rw [hc.base]
    exact (Bool.and_eq_true_iff.mp hc.numeric).2
  · cases hs : head.step with
    | constant l ascending =>
      rw [hs] at hstepType
      rw [hc.base]
      exact hstepType
    | dynamic n =>
      rw [hs] at hstepType
      exact htype ▸ hstepType
  · have hfirstCode := ((hx []).append (Typing.types_assign_scalar hc.firstTyping hscalar Γ [])).snoc
      (.store hcounter hscalar [])
    have hlastCode := ((hfirstCode.append (hy [])).append
      (Typing.types_assign_scalar hc.lastTyping hscalar Γ [])).snoc (.store hslot hscalar [])
    rw [hc.code]
    exact hlastCode.append hstepCode

theorem pushes_of_condition {cond : Expr} (h : (condition r cond).Gives s code s')
    (hfits : Fits Γ r D s s') : Γ.Pushes code (.scalar .boolean) := by
  obtain ⟨x,hx,ht,rfl⟩ := gives_condition.mp h
  rw [← Typing.eq_of_expect ht]
  exact pushes_of_expr r cond hx hfits

theorem types_recover {x : Lower Code} (h : (recover x).Gives s code s')
    (hx : x.Gives s code s' → code.Types Γ [] []) : code.Types Γ [] [] := by
  rcases gives_recover.mp h with h | ⟨_,_,_,_,rfl,_⟩
  · exact hx h
  · exact .nil []

end statements

mutual

theorem types_of_stmt {Γ : Context} {D : Declaration → Prop} (r : Routine) : ∀ (x : Stmt)
    {s : State} {code : Code} {s' : State}, (stmt r x).Gives s code s' → Fits Γ r D s s' →
      DeclaresOnly D x.flatten → code.Types Γ [] []
  | .declare line d, _, _, _, h, hfits, hd =>
    types_of_declaration (by rwa [stmt] at h) hfits (hd line d (by simp [Stmt.flatten]))
  | .share _ names, _, _, _, h, _, _ => types_of_shareAll names (by rwa [stmt] at h)
  | .assign .., _, _, _, h, hfits, _ => types_of_assign (by rwa [stmt] at h) hfits
  | .call .., _, _, _, h, hfits, _ => types_of_callStmt (by rwa [stmt] at h) hfits
  | .ifElse _ _ yes no, _, _, _, h, hfits, hd => by
    obtain ⟨test,t,yesCode,u,noCode,ht,hyes,hno,rfl⟩ := gives_ifElse.mp h
    have hst := changes_of_gives ht (stays_condition (r := r))
    have hfresh := State.changes_labels (r := r) t (if no.isEmpty then 1 else 2)
    have htu := changes_of_gives hyes (stays_stmts r yes _)
    have hus := changes_of_gives hno (stays_stmts r no _)
    have hcond := pushes_of_condition ht (hfits.upTo ((hfresh.trans htu).trans hus))
    have hyes' := types_of_stmts r yes hyes (hfits.mono (hst.trans hfresh) hus)
      (hd.mono (by simp [Stmt.flatten]))
    have hno' := types_of_stmts r no hno (hfits.from ((hst.trans hfresh).trans htu))
      (hd.mono (by simp [Stmt.flatten]))
    have hotherwise : Code.Types Γ (if no.isEmpty then []
        else [.branch t.nextLabel,.label (t.nextLabel + 1)] ++ noCode) [] [] := by
      split
      · exact .nil []
      · exact .cons (.branch _) (.cons (.label _) hno')
    have htest := (hcond []).snoc (.branchIf false (t.nextLabel + if no.isEmpty then 0 else 1))
    exact ((htest.append hyes').append hotherwise).snoc (.label _)
  | .whileDo _ _ body, s, _, _, h, hfits, hd => by
    obtain ⟨bodyCode,t,test,hbody,ht,rfl⟩ := gives_whileDo.mp h
    have hfresh := State.changes_labels (r := r) s 2
    have hst := changes_of_gives hbody (stays_stmts r body _)
    have hts := changes_of_gives ht (stays_condition (r := r))
    have hbody' := types_of_stmts r body hbody (hfits.mono hfresh hts)
      (hd.mono (by simp [Stmt.flatten]))
    have hcond := pushes_of_condition ht (hfits.from (hfresh.trans hst))
    have hstart : Code.Types Γ [.branch (s.nextLabel + 1),.label s.nextLabel] [] [] :=
      .cons (.branch _) (.one (.label _))
    exact (((hstart.append hbody').snoc (.label _)).append (hcond [])).snoc (.branchIf true _)
  | .repeatUntil _ body _, s, _, _, h, hfits, hd => by
    obtain ⟨bodyCode,t,test,hbody,ht,rfl⟩ := gives_repeatUntil.mp h
    have hfresh := State.changes_labels (r := r) s 1
    have hst := changes_of_gives hbody (stays_stmts r body _)
    have hts := changes_of_gives ht (stays_condition (r := r))
    have hbody' := types_of_stmts r body hbody (hfits.mono hfresh hts)
      (hd.mono (by simp [Stmt.flatten]))
    have hcond := pushes_of_condition ht (hfits.from (hfresh.trans hst))
    have hlabel : Code.Types Γ [.label s.nextLabel] [] [] := .one (.label _)
    exact ((hlabel.append hbody').append (hcond [])).snoc (.branchIf false _)
  | .forTo _ _ _ _ _ body, _, _, _, h, hfits, hd => by
    obtain ⟨head,t,bodyCode,hh,hbody,rfl⟩ := gives_forTo.mp h
    have hst := changes_of_gives hh (stays_forHead (r := r))
    have hfresh := State.changes_labels (r := r) t 2
    have hts := changes_of_gives hbody (stays_stmts r body _)
    obtain ⟨hhead,hcode⟩ := types_of_forHead hh (hfits.upTo (hfresh.trans hts))
    have hbody' := types_of_stmts r body hbody (hfits.from (hst.trans hfresh))
      (hd.mono (by simp [Stmt.flatten]))
    exact types_of_loop hhead hcode hbody'
  | .label .., _, _, _, h, _, _ => by
    rw [stmt] at h
    simp only [gives_bind,gives_pure] at h
    obtain ⟨l,_,_,rfl,_⟩ := h
    exact .one (.label l)
  | .goto .., _, _, _, h, _, _ => by
    rw [stmt] at h
    simp only [gives_bind,gives_pure] at h
    obtain ⟨l,_,_,rfl,_⟩ := h
    exact .one (.branch l)
  | .ret .., _, _, _, h, hfits, _ => types_of_ret (by rwa [stmt] at h) hfits
  | .print _ values, _, _, _, h, hfits, _ => types_of_printAll values (by rwa [stmt] at h) hfits
  | .stop _, _, _, _, h, _, _ => by
    rw [stmt] at h
    rw [(gives_pure.mp h).1]
    exact .one (types_runtime .stop .nil)

theorem types_of_stmts {Γ : Context} {D : Declaration → Prop} (r : Routine) : ∀ (xs : List Stmt)
    {s : State} {code : Code} {s' : State}, (stmts r xs).Gives s code s' → Fits Γ r D s s' →
      DeclaresOnly D (Stmt.flattenAll xs) → code.Types Γ [] []
  | [], _, _, _, h, _, _ => by
    rw [stmts] at h
    rw [(gives_pure.mp h).1]
    exact .nil []
  | x :: rest, s, _, _, h, hfits, hd => by
    obtain ⟨first,t,more,hx,hm,rfl⟩ := gives_stmts_cons.mp h
    have hst := changes_of_gives hx (stays_recover (stays_stmt r x s))
    have hts := changes_of_gives hm (stays_stmts r rest t)
    have hfirst := types_recover hx fun hx => types_of_stmt r x hx (hfits.upTo hts)
      (hd.mono (by simp [Stmt.flattenAll]))
    exact hfirst.append (types_of_stmts r rest hm (hfits.from hst)
      (hd.mono (by simp [Stmt.flattenAll])))

end

section bodies

variable {Γ : Context} {r : Routine} {D : Declaration → Prop} {s s' : State} {code : Code}

theorem types_of_allocateAll (hr : r.depth = 0) : ∀ (ds : List Declaration) {s : State}
    {code : Code} {s' : State}, (allocateAll r ds).Gives s code s' → Fits Γ r D s s' →
      (∀ d ∈ ds, D d) → code.Types Γ [] []
  | [], _, _, _, h, _, _ => by
    rw [allocateAll] at h
    rw [(gives_pure.mp h).1]
    exact .nil []
  | d :: rest, _, _, _, h, hfits, hd => by
    obtain ⟨first,t,more,hx,hm,rfl⟩ := gives_allocateAll_cons.mp h
    have hst := changes_of_gives hx (stays_recover (stays_allocateGlobal (r := r)))
    have hts := changes_of_gives hm (stays_allocateAll r rest t)
    have hfirst := types_recover hx fun hx =>
      types_of_allocateGlobal hx (hfits.upTo hts) hr (hd d List.mem_cons_self)
    exact hfirst.append (types_of_allocateAll hr rest hm (hfits.from hst)
      fun e he => hd e (List.mem_cons_of_mem _ he))

theorem types_of_epilogue (h : (epilogue r).Gives s code s') (hfits : Fits Γ r D s s') :
    code.Types Γ [] [] := by
  cases epilogue_cases h with
  | nothing hr => exact .one (.ret (hfits.returns.nothing hr))
  | result hr hn =>
    exact .cons (.load (hfits.place .refl (.result hn) .refl) []) (.one (.ret (hfits.returns.value hr)))
  | zero hr hn =>
    cases hz : Literal.zero r.returns with
    | none => exact .one (.ret (hfits.returns.empty hr hn hz))
    | some l =>
      have hbase : l.base = r.returns := by
        cases hb : r.returns <;> rw [hb] at hz <;> cases hz <;> rfl
      have hvalue := hfits.returns.value hr
      rw [← hbase] at hvalue
      exact .cons (.const l []) (.one (.ret hvalue))

theorem types_of_bodyCode {step : Lower Code} (h : (bodyCode r step).Gives s code s')
    (hstays : step.Stays r s) (hfits : Fits Γ r D s s')
    (hstep : ∀ {body : Code} {t : State}, step.Gives s body t → Fits Γ r D s t →
      body.Types Γ [] []) : code.Types Γ [] [] := by
  obtain ⟨body,t,hb,h⟩ := gives_bodyCode.mp h
  have hst := changes_of_gives hb hstays
  rcases h with ⟨_,rfl,rfl⟩ | ⟨_,more,hm,rfl⟩
  · exact hstep hb hfits
  · have hts := changes_of_gives hm (stays_epilogue (r := r))
    exact (hstep hb (hfits.upTo hts)).append (types_of_epilogue hm (hfits.from hst))

end bodies

end StackCompiler.Lowering
