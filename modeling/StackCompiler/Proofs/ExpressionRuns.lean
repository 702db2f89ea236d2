import StackCompiler.Proofs.EvaluatedScopes
import StackCompiler.Proofs.LoweredDiscipline
import StackCompiler.Proofs.Segments

/-! The code of an expression does what the expression means. -/
namespace StackCompiler.Lowering

open Lower Evaluation

section runs

variable {S : Machine.Scene} {r : Routine} {env : ScopeStack} {s s' : State} {line : Line}
  {name : String} {steps bound : Nat}

/-- The place of a variable is where evaluation looks for it. -/
theorem houses_place {found : Symbol × Nat} {p : Place} {g : Frame}
    (h : (place r found line).Gives s p s') (hg : s'.frame.Grows g) :
    ∃ x, home? r.setting found = some x ∧ g.Houses x p := by
  rcases gives_place.mp h with ⟨hd,rfl,_⟩ | ⟨hd,hr,rfl,rfl⟩
  · exact ⟨.global found.1.key,if_pos hd,rfl⟩
  · refine ⟨.own found.1.key,(if_neg hd).trans (if_pos hr),_,rfl,?_⟩
    exact hg.names _ _ (Frame.slot?_localVar s.frame _ _)

theorem length_exprs {es : List Expr} {values : List Value}
    (h : (exprs r es).Gives s values s') : values.length = es.length := by
  induction es generalizing s values with
  | nil =>
    rw [exprs] at h
    rw [(gives_pure.mp h).1]
    rfl
  | cons e es ih =>
    obtain ⟨x,t,xs,_,hxs,rfl⟩ := gives_exprs_cons.mp h
    exact congrArg (· + 1) (ih hxs)

theorem does_callValue {es : List Expr} {v : Value}
    {σ : List Machine.Value} (h : (callValue r name line (exprs r es)).Gives s v s')
    (he : s.Agrees env)
    (hargs : ∀ {t values cs}, (exprs r es).Gives t values s' → t.Agrees env →
      cs.length = es.length → S.Does steps bound (argumentCode values cs) σ
        (arguments S.host r.setting env cs es) (fun vs => vs.reverse ++ σ)) :
    S.Does steps bound v.code σ
      (invoke S.host (checkedCall? r.setting env name line es) fun cs => arguments S.host r.setting env cs es)
      (fun v => v :: σ) := by
  obtain ⟨target,signature,t,values,cs,hvoid,_,hcall⟩ := callValue_cases h
  have ht := (callee?_of_case hcall.callee he).1
  have hlen := length_exprs hcall.args
  have hcs : cs.length = es.length := by
    rw [Typing.length_call hcall.typing,List.length_map,hlen]
  have hcode : v.code = argumentCode values cs ++ [.call target values.length true] := by
    have hcode := hcall.code
    rw [hvoid] at hcode
    exact hcode
  rw [hcode,checkedCall?_of_case hcall he (known_exprs es hcall.args ht).2]
  refine (hargs hcall.args ht hcs).append fun vs hvs => ?_
  obtain ⟨_,_,hvs⟩ := hvs
  exact Machine.Scene.does_callFor ((length_of_arguments hcs hvs).trans hlen.symm)

theorem does_callValue_nil {v : Value} {σ : List Machine.Value}
    (h : (callValue r name line (pure [])).Gives s v s') (he : s.Agrees env) :
    S.Does steps bound v.code σ (invoke S.host (checkedCall? r.setting env name line []) fun _ => pure [])
      (fun v => v :: σ) := by
  have hargs : (fun cs => arguments S.host r.setting env cs []) = fun _ => pure [] := by
    funext cs
    cases cs <;> rfl
  have hnil : exprs r [] = pure [] := by rw [exprs]
  rw [← hargs]
  refine does_callValue (hnil ▸ h) he fun {t values cs} hvalues _ hcs => ?_
  obtain rfl := List.length_eq_zero_iff.mp hcs
  rw [hnil] at hvalues
  rw [(gives_pure.mp hvalues).1]
  exact Machine.Scene.does_pure rfl

theorem does_ident (hr : r.resultName = none) {v : Value} {σ : List Machine.Value}
    (h : (ident r name line).Gives s v s') (he : s.Agrees env) (hg : s'.frame.Grows S.frame) :
    S.Does steps bound v.code σ (eval S.host r.setting env (.ident line name)) (fun v => v :: σ) := by
  rw [eval]
  cases ident_cases h with
  | intrinsic hi hcall =>
    rw [ScopeStack.resolve_none_of_forget he hi.1]
    exact does_callValue_nil hcall he
  | constant _ hres hc hl =>
    obtain ⟨_,hres'⟩ := ScopeStack.resolve_of_forget he hres
    rw [hres']
    simp only [hc,hl]
    exact Machine.Scene.does_const _
  | @stored symbol depth p _ _ hres hc hp =>
    obtain ⟨_,hres'⟩ := ScopeStack.resolve_of_forget he hres
    obtain ⟨x,hx,hhouses⟩ := houses_place hp hg
    have hload : S.Does steps bound [.load p] σ (do let x ← orTrap (home? r.setting (symbol,depth)); load x)
        (fun v => v :: σ) := by
      rw [hx]
      exact Machine.Scene.does_load hhouses
    rw [hres']
    rcases Bool.or_eq_true_iff.mp hc with hc | hc
    · simp only [eq_of_beq hc]
      exact hload
    · simp only [eq_of_beq hc]
      exact hload
  | result _ _ _ hn =>
    rw [hr] at hn
    cases hn
  | call _ hres hc _ hcall =>
    obtain ⟨_,hres'⟩ := ScopeStack.resolve_of_forget he hres
    rw [hres']
    simp only [hc]
    exact does_callValue_nil hcall (he.touch _ _)

theorem does_boundsCheck {x : Home} {p : Place} (hx : S.frame.Houses x p) (dim : Nat)
    (v : Machine.Value) (extent : Extent) {σ : List Machine.Value} :
    S.Does steps bound (boundsCheck p dim extent) (v :: σ) (checkSubscript x dim v extent)
      (fun _ => v :: σ) := by
  cases extent with
  | fixed n => exact Machine.Scene.does_pure rfl
  | dynamic => exact Machine.Scene.does_checkBounds hx dim v

mutual

/-- Wherever the code of an expression stands, it leaves the value of the expression on the stack. -/
theorem does_expr (hr : r.resultName = none) : ∀ (e : Expr) {s : State} {v : Value} {s' : State},
    (expr r e).Gives s v s' → s.Agrees env → s'.frame.Grows S.frame → ∀ σ : List Machine.Value,
    S.Does steps bound v.code σ (eval S.host r.setting env e) (fun v => v :: σ)
  | .literal _ l, _, _, _, h, _, _, _ => by
    rw [expr] at h
    obtain ⟨rfl,rfl⟩ := gives_pure.mp h
    rw [eval]
    exact Machine.Scene.does_const l
  | .ident _ _, _, _, _, h, he, hg, _ => by
    rw [expr] at h
    exact does_ident hr h he hg
  | .index line name indices, s, v, s', h, he, hg, σ => by
    cases index_cases h with
    | intrinsic hi hcall =>
      rw [eval,ScopeStack.resolve_none_of_forget he hi.1]
      exact does_callValue hcall he fun ha ht hcs => does_exprs hr indices ha ht hg hcs σ
    | call _ hres hc hcall =>
      obtain ⟨_,hres'⟩ := ScopeStack.resolve_of_forget he hres
      rw [eval_index_call hres' hc]
      exact does_callValue hcall (he.touch _ _) fun ha ht hcs => does_exprs hr indices ha ht hg hcs σ
    | @element found p code t _ _ hres hc hp hsub =>
      obtain ⟨_,hres'⟩ := ScopeStack.resolve_of_forget he hres
      obtain ⟨_,_,hrank,hplace⟩ := gives_arrayPlace.mp hp
      have ht : t.Agrees env := (he.touch found line).place hplace
      have hframe := (changes_of_gives hsub (stays_subscripts r _ _ _ _ _ _ _)).frame
      obtain ⟨x,hx,hhouses⟩ := houses_place hplace (hframe.trans hg)
      rw [eval_index_element hres' hc hx]
      refine (does_subscripts hr indices hsub ht hg hhouses hrank σ).append fun vs hvs => ?_
      obtain ⟨_,_,hvs⟩ := hvs
      exact Machine.Scene.does_element hhouses (length_of_subscripts hrank hvs)
  | .unary line op operand, _, _, _, h, he, hg, σ => by
    obtain ⟨x,base,hx,ht,rfl⟩ := gives_unary.mp h
    have hbase : unaryBase? r.setting env line op operand = some base := by
      rw [unaryBase?,(known_expr operand hx he).2]
      simp only [bind,Option.bind,ht]
      rfl
    rw [eval,hbase]
    exact (does_expr hr operand hx he hg σ).append fun _ _ => Machine.Scene.does_unary _ _ _
  | .binary line left op right, _, _, _, h, he, hg, σ => by
    obtain ⟨x,t,y,typing,hx,hy,ht,rfl⟩ := gives_binary.mp h
    obtain ⟨het,htx⟩ := known_expr left hx he
    have htyping : binaryTyping? r.setting env line left op right = some typing := by
      rw [binaryTyping?,htx,(known_expr right hy het).2]
      simp only [bind,Option.bind,ht]
      rfl
    have hframe := (changes_of_gives hy (stays_expr r right t)).frame
    rw [eval,htyping]
    simp only [List.append_assoc]
    refine (does_expr hr left hx he (hframe.trans hg) σ).append fun a _ => ?_
    refine (Machine.Scene.does_convert typing.left a).append fun a' _ => ?_
    refine (does_expr hr right hy het hg (a' :: σ)).append fun b _ => ?_
    refine (Machine.Scene.does_convert typing.right b).append fun b' _ => ?_
    exact Machine.Scene.does_binary _ _ _ _
  | .call line name args, _, _, _, h, he, hg, σ => by
    rw [expr] at h
    rw [eval]
    exact does_callValue h he fun ha ht hcs => does_exprs hr args ha ht hg hcs σ

theorem does_exprs (hr : r.resultName = none) : ∀ (es : List Expr) {s : State}
    {values : List Value} {s' : State}, (exprs r es).Gives s values s' → s.Agrees env →
    s'.frame.Grows S.frame → ∀ {cs : List Coercion}, cs.length = es.length →
    ∀ σ : List Machine.Value, S.Does steps bound (argumentCode values cs) σ
      (arguments S.host r.setting env cs es) (fun vs => vs.reverse ++ σ)
  | [], _, _, _, h, _, _, cs, hcs, σ => by
    obtain rfl := List.length_eq_zero_iff.mp hcs
    rw [exprs] at h
    rw [(gives_pure.mp h).1]
    exact Machine.Scene.does_pure rfl
  | _ :: _, _, _, _, _, _, _, [], hcs, _ => by cases hcs
  | e :: rest, _, _, _, h, he, hg, c :: cs, hcs, σ => by
    obtain ⟨x,t,xs,hx,hxs,rfl⟩ := gives_exprs_cons.mp h
    have het := (known_expr e hx he).1
    have hframe := (changes_of_gives hxs (stays_exprs r rest t)).frame
    change S.Does steps bound (x.code ++ c.code ++ argumentCode xs cs) σ _ _
    rw [arguments,List.append_assoc]
    refine (does_expr hr e hx he (hframe.trans hg) σ).append fun a _ => ?_
    refine (Machine.Scene.does_convert c a).append fun a' _ => ?_
    refine (does_exprs hr rest hxs het hg (Nat.succ.inj hcs) (a' :: σ)).map fun vs => ?_
    rw [List.reverse_cons,List.append_assoc]
    rfl

theorem does_subscripts (hr : r.resultName = none) : ∀ (indices : List Expr) {name : String}
    {p : Place} {line : Line} {dim : Nat} {extents : List Extent} {s : State} {code : Code}
    {s' : State}, (subscripts r name p line dim extents indices).Gives s code s' → s.Agrees env →
    s'.frame.Grows S.frame → ∀ {x : Home}, S.frame.Houses x p → extents.length = indices.length →
    ∀ σ : List Machine.Value, S.Does steps bound code σ
      (Evaluation.subscripts S.host r.setting env x dim extents indices) (fun vs => vs.reverse ++ σ)
  | [], _, _, _, _, _, _, _, _, h, _, _, _, _, hlen, σ => by
    obtain rfl := List.length_eq_zero_iff.mp hlen
    rw [subscripts] at h
    rw [(gives_pure.mp h).1]
    exact Machine.Scene.does_pure rfl
  | _ :: _, _, _, _, _, [], _, _, _, _, _, _, _, _, hlen, _ => by cases hlen
  | index :: rest, _, p, _, dim, extent :: extents, _, _, _, h, he, hg, x, hx, hlen, σ => by
    obtain ⟨y,t,more,hy,_,_,hmore,rfl⟩ := gives_subscripts_cons.mp h
    have het := (known_expr index hy he).1
    have hframe := (changes_of_gives hmore (stays_subscripts r _ _ _ _ _ _ _)).frame
    rw [Evaluation.subscripts,List.append_assoc]
    refine (does_expr hr index hy he (hframe.trans hg) σ).append fun a _ => ?_
    refine (does_boundsCheck hx dim a extent).append fun _ _ => ?_
    refine (does_subscripts hr rest hmore het hg hx (Nat.succ.inj hlen) (a :: σ)).map fun vs => ?_
    rw [List.reverse_cons,List.append_assoc]
    rfl

end

theorem does_valueFor (hr : r.resultName = none) {e : Expr} {v : Value} {c : Coercion} {target : Ty}
    (h : (expr r e).Gives s v s') (ht : Typing.assign target v.type line = .ok c) (he : s.Agrees env)
    (hg : s'.frame.Grows S.frame) (σ : List Machine.Value) :
    S.Does steps bound (v.code ++ c.code) σ (valueFor S.host r.setting env target e line)
      (fun v => v :: σ) := by
  have hc : coercion? r.setting env target e line = some c := by
    rw [coercion?,(known_expr e h he).2]
    simp only [bind,Option.bind,ht]
    rfl
  rw [valueFor,hc]
  exact (does_expr hr e h he hg σ).append fun a _ => Machine.Scene.does_convert c a

end runs

end StackCompiler.Lowering
