import StackCompiler.Proofs.ControlFlow
import StackCompiler.Proofs.ExpressionRuns

/-! The code of a statement does what the statement means.
Evaluation goes through the same scopes as the statements are put into code; the slots of limits and
steps have no names, so that no variable shares them. -/
namespace StackCompiler.Lowering

open Lower Evaluation

section simple

variable {S : Machine.Scene} {r : Routine} {env : ScopeStack} {s s' : State} {line : Line}
  {name : String} {code : Code} {steps bound : Nat} {σ : List Machine.Value}

theorem does_extents (hr : r.resultName = none) {d : Declaration} : ∀ (dimensions : List Extent)
    {sizes : List Expr} {s : State} {code : Code} {s' : State},
    (extents r d dimensions sizes).Gives s code s' → s.Agrees env → s'.frame.Grows S.frame →
    ∀ σ : List Machine.Value, S.Does steps bound code σ
      (Evaluation.extents S.host r.setting env dimensions sizes) (fun vs => vs.reverse ++ σ)
  | [], _, _, _, _, h, _, _, _ => by
    rw [extents] at h
    rw [(gives_pure.mp h).1]
    exact Machine.Scene.does_pure rfl
  | .fixed n :: rest, sizes, _, _, _, h, he, hg, σ => by
    obtain ⟨more,hmore,rfl⟩ := gives_extents_fixed.mp h
    have hn : S.Does steps bound [.const (.integer n.toInt64)] σ (pure (.scalar (.integer n.toInt64)))
        (fun v => v :: σ) := Machine.Scene.does_const _
    rw [Evaluation.extents]
    refine hn.append (b := more) (f := fun v => do
      let values ← Evaluation.extents S.host r.setting env rest sizes
      pure (v :: values)) fun v _ => ?_
    refine (does_extents hr rest hmore he hg (v :: σ)).map fun vs => ?_
    rw [List.reverse_cons,List.append_assoc]
    rfl
  | .dynamic :: rest, [], _, _, _, h, _, _, _ => by
    rw [extents] at h
    exact absurd h gives_fail
  | .dynamic :: rest, size :: sizes, _, _, _, h, he, hg, σ => by
    obtain ⟨x,t,more,hx,_,hmore,rfl⟩ := gives_extents_dynamic.mp h
    have het := (known_expr size hx he).1
    have hframe := (changes_of_gives hmore (stays_extents r d rest sizes t)).frame
    rw [Evaluation.extents]
    refine (does_expr hr size hx he (hframe.trans hg) σ).append fun v _ => ?_
    refine (does_extents hr rest hmore het hg (v :: σ)).map fun vs => ?_
    rw [List.reverse_cons,List.append_assoc]
    rfl

theorem does_allocate (hr : r.resultName = none) {d : Declaration} {array : Place} {x : Home}
    (h : (allocate r d array).Gives s code s') (he : s.Agrees env) (hg : s'.frame.Grows S.frame)
    (hx : S.frame.Houses x array) :
    S.Does steps bound code σ (Evaluation.allocate S.host r.setting env d x) (fun _ => σ) := by
  obtain ⟨sizes,hsizes,rfl⟩ := gives_allocate.mp h
  refine (does_extents hr d.dimensions hsizes he hg σ).append fun vs hvs => ?_
  obtain ⟨_,_,hvs⟩ := hvs
  exact Machine.Scene.does_makeArray hx d.base (length_of_extents hvs)

theorem does_declaration (hr : r.resultName = none) {d : Declaration}
    (h : (declaration r d).Gives s code s') (he : s.Agrees env) (hg : s'.frame.Grows S.frame) :
    S.Does steps bound code σ (Evaluation.declaration S.host r.setting env d) (fun _ => σ) := by
  rw [Evaluation.declaration]
  cases declaration_cases h with
  | global hz h =>
    rcases gives_allocateGlobal.mp h with ⟨hn,h⟩ | ⟨hn,rfl,rfl⟩
    · rw [if_pos ((makesArray_iff d).mpr hn),if_pos hz,ScopeStack.normalize_of_forget he]
      exact does_allocate hr h he hg rfl
    · rw [if_neg fun ha => ne_true_of_eq_false hn ((makesArray_iff d).mp ha)]
      exact Machine.Scene.does_pure rfl
  | plain hz hd hn =>
    rw [if_neg fun ha => ne_true_of_eq_false hn ((makesArray_iff d).mp ha)]
    exact Machine.Scene.does_pure rfl
  | @array symbol scopes code s' hz hd hn h =>
    obtain ⟨env',hd',he'⟩ := declare_of_agrees he hd
    have hframe := (changes_of_gives h stays_allocate).frame
    have hslot := Frame.slot?_localVar s.frame symbol.key symbol.type
    rw [if_pos ((makesArray_iff d).mpr hn),if_neg hz,hd']
    exact does_allocate hr h he' hg ⟨_,rfl,(hframe.trans hg).names _ _ hslot⟩

theorem does_assign (hr : r.resultName = none) {target : Target} {value : Expr}
    (h : (assign r target value line).Gives s code s') (he : s.Agrees env)
    (hg : s'.frame.Grows S.frame) :
    S.Does steps bound code σ (Evaluation.assign S.host r.setting env target value line)
      (fun _ => σ) := by
  cases assign_cases h with
  | result _ _ _ hn =>
    rw [hr] at hn
    cases hn
  | @stored found p x c t _ hres _ hi hp hx ht =>
    obtain ⟨_,hres'⟩ := ScopeStack.resolve_of_forget he hres
    have het := (he.touch found line).place hp
    have hframe := (changes_of_gives hx (stays_expr r value t)).frame
    obtain ⟨y,hy,hhouses⟩ := houses_place hp (hframe.trans hg)
    rw [assign_variable hres' hy hi]
    exact (does_valueFor hr hx ht het hg σ).append fun v _ => Machine.Scene.does_store hhouses v
  | @element found p indices x c t u _ hres _ hi hp hs hx ht =>
    obtain ⟨_,hres'⟩ := ScopeStack.resolve_of_forget he hres
    obtain ⟨_,_,hrank,hplace⟩ := gives_arrayPlace.mp hp
    have het := (he.touch found line).place hplace
    have heu := known_subscripts target.indices hs het
    have hframe := (changes_of_gives hx (stays_expr r value u)).frame
    have hframe' := (changes_of_gives hs (stays_subscripts r _ _ _ _ _ _ t)).frame
    obtain ⟨y,hy,hhouses⟩ := houses_place hplace (hframe'.trans (hframe.trans hg))
    rw [assign_element hres' hy hi,List.append_assoc,List.append_assoc,← List.append_assoc x.code]
    refine (does_subscripts hr target.indices hs het (hframe.trans hg) hhouses hrank σ).append
      fun vs hvs => ?_
    obtain ⟨_,_,hvs⟩ := hvs
    refine (does_valueFor hr hx ht heu hg (vs.reverse ++ σ)).append fun v _ => ?_
    exact Machine.Scene.does_setElement hhouses (length_of_subscripts hrank hvs) v

theorem does_callStmt (hr : r.resultName = none) {args : List Expr}
    (h : (callStmt r name args line).Gives s code s') (he : s.Agrees env)
    (hg : s'.frame.Grows S.frame) :
    S.Does steps bound code σ (Evaluation.callStmt S.host r.setting env name args line)
      (fun _ => σ) := by
  obtain ⟨p,hcall,rfl⟩ := gives_callStmt.mp h
  obtain ⟨target,signature,t,values,cs,hcase⟩ := call_cases hcall
  have het := (callee?_of_case hcase.callee he).1
  have hlen := length_exprs hcase.args
  have hcs : cs.length = args.length := by
    rw [Typing.length_call hcase.typing,List.length_map,hlen]
  have hchecked := checkedCall?_of_case hcase he (known_exprs args hcase.args het).2
  have hargs : S.Does steps bound (argumentCode values cs) σ (arguments S.host r.setting env cs args)
      (fun vs => vs.reverse ++ σ) := does_exprs hr args hcase.args het hg hcs σ
  rw [Evaluation.callStmt,hchecked,hcase.code,hcase.type]
  cases hvoid : signature.type.isVoid with
  | true =>
    refine hargs.append fun vs hvs => ?_
    obtain ⟨_,_,hvs⟩ := hvs
    exact Machine.Scene.does_callOnly ((length_of_arguments hcs hvs).trans hlen.symm)
  | false =>
    change S.Does steps bound (argumentCode values cs ++ [.call target values.length true] ++ [.pop]) σ _ _
    rw [List.append_assoc]
    refine hargs.append fun vs hvs => ?_
    obtain ⟨_,_,hvs⟩ := hvs
    have hcall : S.Does steps bound [.call target values.length true] (vs.reverse ++ σ)
        (callFor S.host target vs) (fun v => v :: σ) :=
      Machine.Scene.does_callFor ((length_of_arguments hcs hvs).trans hlen.symm)
    exact hcall.append fun v _ => Machine.Scene.does_pop v

theorem does_retStmt (hr : r.resultName = none) {value : Option Expr} {limit : Nat}
    (h : (ret r value line).Gives s code s') (he : s.Agrees env) (hg : s'.frame.Grows S.frame) :
    S.Does steps bound code σ (Evaluation.exec S.host r.setting limit env (.ret line value))
      (fun _ => σ) := by
  cases ret_cases h with
  | nothing =>
    rw [Evaluation.exec]
    exact Machine.Scene.does_ret fun _ => rfl
  | result _ hn =>
    rw [hr] at hn
    cases hn
  | value _ hx ht =>
    rw [Evaluation.exec]
    exact (does_valueFor hr hx ht he hg σ).append fun v _ => Machine.Scene.does_ret fun _ => rfl

theorem does_printAll (hr : r.resultName = none) : ∀ (values : List Expr) {s : State} {code : Code}
    {s' : State}, (printAll r line values).Gives s code s' → s.Agrees env →
    s'.frame.Grows S.frame → S.Does steps bound code σ
      (Evaluation.printAll S.host r.setting env values) (fun _ => σ)
  | [], _, _, _, h, _, _ => by
    rw [printAll] at h
    rw [(gives_pure.mp h).1]
    exact Machine.Scene.does_callOnly (show ([] : List Machine.Value).length = 0 from rfl)
  | e :: rest, _, _, _, h, he, hg => by
    obtain ⟨x,t,printer,more,hx,hprinter,hmore,rfl⟩ := gives_printAll_cons.mp h
    obtain ⟨het,htype⟩ := known_expr e hx he
    have hframe := (changes_of_gives hmore (stays_printAll r line rest t)).frame
    have hprinter' : (typeOf r.setting env e).bind Evaluation.printer? = some printer := by
      rw [htype]
      exact (printer?_eq x.type).trans hprinter
    rw [Evaluation.printAll,hprinter']
    refine (does_expr hr e hx he (hframe.trans hg) σ).append fun v _ => ?_
    have hcall : S.Does steps bound [.call (.runtime printer) 1 false] (v :: σ)
        (callOnly S.host (.runtime printer) [v]) (fun _ => σ) :=
      Machine.Scene.does_callOnly (show [v].length = 1 from rfl)
    exact hcall.append (b := more) fun _ _ => does_printAll hr rest hmore het hg

end simple

/-- The step is the number in the type of the counter, or its slot holds what was computed for it. -/
inductive Step.Carries (base : BaseType) (slots : Slot → Machine.Value) : Step → Stride → Prop
  | constant (l : Literal) :
    Carries base slots (.constant (counted base l) (upwards l)) (.constant l)
  | dynamic {n : Slot} {v : Machine.Value} (h : slots n = v) :
    Carries base slots (.dynamic n) (.computed v)

section carries

variable {base : BaseType} {slots slots' : Slot → Machine.Value}

theorem Step.Carries.of_eq {step : Step} {stride : Stride} (h : step.Carries base slots stride)
    (hs : ∀ n, step = .dynamic n → slots' n = slots n) : step.Carries base slots' stride := by
  cases h with
  | constant l => exact .constant l
  | dynamic hn => exact .dynamic ((hs _ rfl).trans hn)

theorem Step.Carries.slot {n : Slot} {v : Machine.Value}
    (h : (Step.dynamic n).Carries base slots (.computed v)) : slots n = v := by
  cases h with
  | dynamic hn => exact hn

/-- The sign of a written step and its value in the type of the counter are found by the code. -/
theorem Step.carries_constant (l : Literal) :
    (Step.constant (if base = .double then l.promote else l) (Step.ascends l)).Carries base slots
      (.constant l) := by
  rw [← counted_eq,← upwards_eq]
  exact .constant l

end carries

structure ForHead.Carries (head : ForHead) (f : Frame) (c : Count) (slots : Slot → Machine.Value) :
    Prop where
  counter : f.Houses c.counter head.counter
  base : c.base = head.base
  numeric : c.base.isNumeric = true
  limit : slots head.limit = c.limit
  step : head.step.Carries c.base slots c.stride

structure ForHead.Reserves (head : ForHead) (f : Frame) (bound : Nat) : Prop where
  limit : head.limit < bound ∧ f.Nameless head.limit
  step : ∀ n, head.step = .dynamic n → n < bound ∧ f.Nameless n

section counting

variable {S : Machine.Scene} {r : Routine} {env : ScopeStack} {s s' : State} {line : Line}
  {name : String} {steps bound : Nat} {σ : List Machine.Value} {head : ForHead} {c : Count}

theorem ForHead.Carries.keeps {slots slots' : Slot → Machine.Value}
    (h : head.Carries S.frame c slots) (hr : head.Reserves S.frame bound)
    (hk : S.frame.Keeps bound slots slots') : head.Carries S.frame c slots' := by
  refine ⟨h.counter,h.base,h.numeric,(hk _ hr.limit.1 hr.limit.2).trans h.limit,?_⟩
  exact h.step.of_eq fun n hn => hk n (hr.step n hn).1 (hr.step n hn).2

variable {I : (Slot → Machine.Value) → Prop}

theorem serves_signed {limit slot : Slot} {counter : Place} {v : Machine.Value}
    {sign bounded : BinaryOp}
    (hI : ∀ slots slots', S.frame.Keeps bound slots slots' → I slots → I slots')
    (hx : S.frame.Houses c.counter counter) (hnumeric : c.base.isNumeric = true)
    (hlimit : ∀ slots, I slots → slots limit = c.limit) (hslot : ∀ slots, I slots → slots slot = v) :
    S.Serves steps I (Step.signed counter limit slot c.base sign bounded) σ
      (c.keepsTo S.host v sign bounded) (fun v => v :: σ) := by
  rw [Step.signed,zero_of_isNumeric hnumeric]
  refine .temp hslot (.const ?_)
  refine ((Machine.Scene.does_binary _ _ _ _).serves hI).append (b := _ :: _) fun a => ?_
  refine ((Machine.Scene.does_load hx).serves hI).append (b := _ :: _) fun x => .temp hlimit ?_
  refine ((Machine.Scene.does_binary _ _ _ _).serves hI).append (b := [_]) fun b => ?_
  exact (Machine.Scene.does_binary _ _ _ _).serves hI

theorem serves_test {counter : Place} {limit : Slot} {step : Step}
    (hI : ∀ slots slots', S.frame.Keeps bound slots slots' → I slots → I slots')
    (hx : S.frame.Houses c.counter counter) (hnumeric : c.base.isNumeric = true)
    (hlimit : ∀ slots, I slots → slots limit = c.limit)
    (hstep : ∀ slots, I slots → step.Carries c.base slots c.stride) :
    S.Serves steps I (step.test counter limit c.base) σ (c.goesOn S.host) (fun v => v :: σ) := by
  intro m hcode hstack hslots
  obtain ⟨home,base,limitValue,stride⟩ := c
  refine (?_ : S.Serves steps I _ σ _ _) m hcode hstack hslots
  cases hstep _ hslots with
  | constant l =>
    refine ((Machine.Scene.does_load hx).serves hI).append (b := _ :: _) fun x => .temp hlimit ?_
    exact (Machine.Scene.does_binary _ _ _ _).serves hI
  | dynamic =>
    rw [Step.test,List.append_assoc]
    refine (serves_signed hI hx hnumeric hlimit fun slots h => (hstep slots h).slot).append fun up => ?_
    refine (serves_signed hI hx hnumeric hlimit fun slots h => (hstep slots h).slot).append
      fun down => ?_
    exact (Machine.Scene.does_binary _ _ _ _).serves hI

theorem serves_advance {counter : Place} {step : Step}
    (hI : ∀ slots slots', S.frame.Keeps bound slots slots' → I slots → I slots')
    (hx : S.frame.Houses c.counter counter)
    (hstep : ∀ slots, I slots → step.Carries c.base slots c.stride) :
    S.Serves steps I ([.load counter] ++ step.load ++ [.binary .add c.base,.store counter]) σ
      (c.advance S.host) (fun _ => σ) := by
  have hadd : ∀ x y : Machine.Value, S.Serves steps I [.binary .add c.base,.store counter]
      (y :: x :: σ) (do
        let sum ← orTrap (S.host.operations.binary .add c.base x y)
        store c.counter sum) (fun _ => σ) := fun x y =>
    ((Machine.Scene.does_binary _ _ _ _).serves hI).append (b := [_]) fun sum =>
      (Machine.Scene.does_store hx sum).serves hI
  intro m hcode hstack hslots
  obtain ⟨home,base,limit,stride⟩ := c
  refine (?_ : S.Serves steps I _ σ _ _) m hcode hstack hslots
  rw [Count.advance,List.append_assoc]
  refine ((Machine.Scene.does_load hx).serves hI).append fun x => ?_
  cases hstep _ hslots with
  | constant l => exact .const (hadd x (.scalar (counted base l)))
  | dynamic => exact .temp (fun slots h => (hstep slots h).slot) (hadd x _)

section stride

variable {type : Ty} {step : Option Expr} {p : Code × Step}

theorem StepCase.frame (h : StepCase r type s step p s') : s.frame.Grows s'.frame := by
  cases h with
  | one => exact .refl _
  | constant => exact .refl _
  | dynamic _ hx =>
    exact (changes_of_gives hx (stays_expr r _ _)).frame.trans (Frame.grows_temp _ _)

theorem StepCase.reserves {g : Frame} (h : StepCase r type s step p s') (hi : g.Indexed)
    (hg : s'.frame.Grows g) : ∀ n, p.2 = .dynamic n → n < s'.frame.length ∧ g.Nameless n := by
  intro n hn
  cases h with
  | one => cases hn
  | constant => cases hn
  | dynamic _ hx =>
    cases hn
    exact ⟨Frame.length_lt_temp _ _,Frame.nameless_of_grows hg hi⟩

theorem arrives_stride (hr : r.resultName = none) {code : Code} {st : Step} {m : Machine.Moment}
    (h : StepCase r type s step (code,st) s') (he : s.Agrees env) (hg : s'.frame.Grows S.frame)
    (hle : bound ≤ s.frame.length) (hcode : S.code.Has m.config.pc code)
    (hstack : m.config.stack = σ) :
    S.Arrives steps (m.config.pc + code.length) m
      (fun stride m' => m'.config.pc = m.config.pc + code.length ∧ m'.config.stack = σ ∧
        S.frame.Keeps bound m.config.slots m'.config.slots ∧
        st.Carries type.base m'.config.slots stride)
      (strideOf S.host r.setting env type step (m.world S.frame)) := by
  cases h with
  | one => exact ⟨0,m,.refl m,rfl,rfl,hstack,.refl _ _ _,Step.carries_constant (.integer 1)⟩
  | @constant _ l _ hl =>
    rw [strideOf,numeral?_eq,hl]
    exact ⟨0,m,.refl m,rfl,rfl,hstack,.refl _ _ _,Step.carries_constant l⟩
  | @dynamic e x c t hl hx ht =>
    have hgrows := (changes_of_gives hx (stays_expr r e s)).frame
    have hname := Frame.nameless_of_grows hg S.indexed
    rw [strideOf,numeral?_eq,hl]
    refine (Machine.Scene.arrives_keep
      (does_valueFor hr hx ht he ((Frame.grows_temp _ type).trans hg) σ) hname
      (Nat.le_trans hle hgrows.length_le) hcode hstack).bind (Nat.le_refl _) fun v m' _ h => ?_
    obtain ⟨hpc,hstack',hkeeps,hv⟩ := h
    exact ⟨0,m',.refl m',rfl,hpc,hstack',hkeeps,.dynamic hv⟩

end stride

section head

variable {first last : Expr} {step : Option Expr} {found : Symbol × Nat} {x y : Value}
  {cx cy : Coercion} {stepCode : Code} {t u v : State}

theorem ForCase.frames (hc : ForCase r name first last step line s head s' found x y cx cy stepCode t u v)
    : s.frame.Grows t.frame ∧ t.frame.Grows u.frame ∧ u.frame.Grows v.frame ∧
      (v.frame.temp found.1.type).Grows s'.frame := by
  refine ⟨?_,(changes_of_gives hc.firstValue (stays_expr r first t)).frame,
    (changes_of_gives hc.lastValue (stays_expr r last u)).frame,hc.stepValue.frame⟩
  rcases gives_place.mp hc.counter with ⟨_,_,rfl⟩ | ⟨_,_,_,rfl⟩
  · exact .refl _
  · exact Frame.grows_localVar _ _ _

theorem ForCase.reserves (hc : ForCase r name first last step line s head s' found x y cx cy stepCode t u v)
    {g : Frame} (hi : g.Indexed) (hg : s'.frame.Grows g) : head.Reserves g s'.frame.length := by
  have htemp := hc.frames.2.2.2
  refine ⟨?_,hc.stepValue.reserves hi hg⟩
  rw [hc.limit]
  exact ⟨Nat.lt_of_lt_of_le (Frame.length_lt_temp _ _) htemp.length_le,
    Frame.nameless_of_grows (htemp.trans hg) hi⟩

theorem arrives_countFrom (hr : r.resultName = none)
    (hc : ForCase r name first last step line s head s' found x y cx cy stepCode t u v)
    (he : s.Agrees env) (hg : s'.frame.Grows S.frame) {m : Machine.Moment}
    (hcode : S.code.Has m.config.pc head.code) (hstack : m.config.stack = σ) :
    S.Arrives steps (m.config.pc + head.code.length) m
      (fun c m' => m'.config.pc = m.config.pc + head.code.length ∧ m'.config.stack = σ ∧
        S.frame.Keeps s.frame.length m.config.slots m'.config.slots ∧
        head.Carries S.frame c m'.config.slots)
      (countFrom S.host r.setting env name first last step (m.world S.frame)) := by
  obtain ⟨hst,htu,huv,hvs⟩ := hc.frames
  have hgv : v.frame.Grows S.frame := (Frame.grows_temp _ _).trans (hvs.trans hg)
  have hgu := huv.trans hgv
  have het := (he.touch found line).place hc.counter
  have heu := (known_expr first hc.firstValue het).1
  have hev := (known_expr last hc.lastValue heu).1
  obtain ⟨_,hres⟩ := ScopeStack.resolve_of_forget he hc.resolved
  obtain ⟨z,hz,hhouses⟩ := houses_place hc.counter (htu.trans hgu)
  have hshape : head.code = (x.code ++ cx.code) ++ ([.store head.counter] ++
      ((y.code ++ cy.code ++ [.store (.slot head.limit)]) ++ stepCode)) := by
    rw [hc.code]
    simp only [List.append_assoc]
  rw [countFrom_eq hres hz]
  rw [hshape] at hcode ⊢
  obtain ⟨hcode₁,hcode⟩ := Code.has_append.mp hcode
  obtain ⟨hcode₂,hcode⟩ := Code.has_append.mp hcode
  obtain ⟨hcode₃,hcode₄⟩ := Code.has_append.mp hcode
  have hlength : ∀ a b c d : Code, m.config.pc + (a ++ (b ++ (c ++ d))).length =
      m.config.pc + a.length + b.length + c.length + d.length := by
    intro a b c d
    simp only [List.length_append]
    omega
  have hfirst : S.Does steps s.frame.length (x.code ++ cx.code) σ
      (valueFor S.host r.setting env found.1.type first first.line) (fun v => v :: σ) :=
    does_valueFor hr hc.firstValue hc.firstTyping het hgu σ
  have hstore : ∀ a, S.Does steps s.frame.length [.store head.counter] (a :: σ) (store z a)
      (fun _ => σ) := Machine.Scene.does_store hhouses
  have hlast : S.Does steps s.frame.length (y.code ++ cy.code) σ
      (valueFor S.host r.setting env found.1.type last last.line) (fun v => v :: σ) :=
    does_valueFor hr hc.lastValue hc.lastTyping heu hgv σ
  have hname := (hc.reserves S.indexed hg).limit.2
  have hnumeric : found.1.type.base.isNumeric = true := (Bool.and_eq_true _ _ ▸ hc.numeric).2
  have hle : s.frame.length ≤ v.frame.length := (hst.trans (htu.trans huv)).length_le
  rw [hlength]
  refine (hfirst m hcode₁ hstack).bind (by omega) fun a m₁ _ ⟨hpc₁,hstack₁,hkeeps₁⟩ => ?_
  rw [← hpc₁] at hcode₂ hcode₃ hcode₄
  refine (hstore a m₁ hcode₂ hstack₁).bind (by omega) fun _ m₂ _ ⟨hpc₂,hstack₂,hkeeps₂⟩ => ?_
  rw [← hpc₂] at hcode₃ hcode₄
  refine (Machine.Scene.arrives_keep hlast hname (hc.limit ▸ hle) hcode₃ hstack₂).bind (by omega)
    fun l m₃ _ ⟨hpc₃,hstack₃,hkeeps₃,hlimit⟩ => ?_
  rw [← hpc₃] at hcode₄
  refine (arrives_stride hr hc.stepValue hev hg (Nat.le_refl _) hcode₄ hstack₃).bind (by omega)
    fun stride m₄ _ ⟨hpc₄,hstack₄,hkeeps₄,hstep⟩ => ?_
  have hkept : m₄.config.slots head.limit = l := by
    refine (hkeeps₄ _ ?_ hname).trans hlimit
    rw [hc.limit]
    exact Frame.length_lt_temp _ _
  have hkeeps := hkeeps₄.mono (Nat.le_trans hle (Nat.le_of_lt (Frame.length_lt_temp _ _)))
  exact ⟨0,m₄,.refl m₄,rfl,by omega,hstack₄,hkeeps₁.trans (hkeeps₂.trans (hkeeps₃.trans hkeeps)),
    hhouses,hc.base.symm,hnumeric,hkept,hstep⟩

/-- A counting loop around code that keeps the slots of limit and step. -/
theorem does_forTo (hr : r.resultName = none) {body : Eval Unit} {bodyCode : Code} {l l' : Label}
    (h : (forHead r name first last step line).Gives s head s') (he : s.Agrees env)
    (hg : s'.frame.Grows S.frame)
    (hbody : S.Does steps s'.frame.length bodyCode σ body fun _ => σ) :
    S.Does steps s.frame.length (head.loop l l' bodyCode) σ (do
      let c ← countFrom S.host r.setting env name first last step
      rounds (c.goesOn S.host) (do body; c.advance S.host) steps) (fun _ => σ) := by
  obtain ⟨found,x,y,cx,cy,stepCode,t,u,v,hc⟩ := forHead_cases h
  have hreserves := hc.reserves S.indexed hg
  have hle := (changes_of_gives h stays_forHead).frame.length_le
  have hshape : head.loop l l' bodyCode = head.code ++ ([.branch l',.label l] ++
      (bodyCode ++ ([.load head.counter] ++ head.step.load ++
        [.binary .add head.base,.store head.counter])) ++ [.label l'] ++
      head.step.test head.counter head.limit head.base ++ [.branchIf true l]) := by
    simp only [ForHead.loop,List.append_assoc]
  rw [hshape]
  intro m hcode hstack
  obtain ⟨hhead,hloop⟩ := Code.has_append.mp hcode
  rw [List.length_append,← Nat.add_assoc]
  refine (arrives_countFrom hr hc he hg hhead hstack).bind (Nat.le_add_right _ _) ?_
  rintro c m₁ - ⟨hpc,hstack₁,hkeeps,hcarries⟩
  rw [← hpc] at hloop ⊢
  -- in every round the slots are as they were found, but for variables, and carry the count
  have hI : ∀ slots slots', S.frame.Keeps s'.frame.length slots slots' →
      S.frame.Keeps s.frame.length m.config.slots slots ∧ head.Carries S.frame c slots →
      S.frame.Keeps s.frame.length m.config.slots slots' ∧ head.Carries S.frame c slots' := by
    rintro slots slots' hk ⟨hslots,hcarries⟩
    exact ⟨hslots.trans (hk.mono hle),hcarries.keeps hreserves hk⟩
  have hrounds := Machine.Scene.serves_rounds (l := l) (k := l')
    ((hbody.serves hI).append fun _ => serves_advance hI hcarries.counter fun slots h => h.2.step)
    (serves_test hI hcarries.counter hcarries.numeric (fun slots h => h.2.limit)
      fun slots h => h.2.step)
  rw [hcarries.base] at hrounds
  refine (hrounds m₁ hloop hstack₁ ⟨hkeeps,hcarries⟩).mono (Nat.le_refl _) (Nat.le_refl _) ?_
  rintro _ m₂ ⟨hpc₂,hstack₂,hkeeps₂,_⟩
  exact ⟨hpc₂,hstack₂,hkeeps₂⟩

end head

end counting

section statements

variable {S : Machine.Scene} {r : Routine} {env : ScopeStack} {s s' : State} {code : Code}
  {steps bound : Nat}

theorem does_condition (hr : r.resultName = none) {cond : Expr}
    (h : (condition r cond).Gives s code s') (he : s.Agrees env) (hg : s'.frame.Grows S.frame)
    (σ : List Machine.Value) :
    S.Does steps bound code σ (eval S.host r.setting env cond) (fun v => v :: σ) := by
  obtain ⟨x,hx,_,rfl⟩ := gives_condition.mp h
  exact does_expr hr cond hx he hg σ

mutual

/-- Wherever the code of a statement stands, it does what the statement means. -/
theorem does_stmt (hr : r.resultName = none) : ∀ (x : Stmt) {env : ScopeStack} {s : State}
    {code : Code} {s' : State}, (stmt r x).Gives s code s' → s'.errors = s.errors → s.Agrees env →
    s'.frame.Grows S.frame → (∀ y ∈ x.flatten, y.isJump = false) → ∀ σ : List Machine.Value,
    S.Does steps s.frame.length code σ (exec S.host r.setting steps env x) (fun _ => σ)
  | .declare line d, _, _, _, _, h, _, he, hg, _, σ => by
    rw [stmt] at h
    rw [exec]
    exact does_declaration hr h he hg
  | .share line names, _, _, _, _, h, _, he, _, _, σ => by
    rw [stmt] at h
    rw [exec,(agrees_shareAll (r := r) names h he).1]
    exact Machine.Scene.does_pure rfl
  | .assign line target value, _, _, _, _, h, _, he, hg, _, σ => by
    rw [stmt] at h
    rw [exec]
    exact does_assign hr h he hg
  | .call line name args, _, _, _, _, h, _, he, hg, _, σ => by
    rw [stmt] at h
    rw [exec]
    exact does_callStmt hr h he hg
  | .ifElse line cond yes no, env, s, _, s', h, herr, he, hg, hjump, σ => by
    obtain ⟨testCode,t,yesCode,u,noCode,htest,hyes,hno,rfl⟩ := gives_ifElse.mp h
    obtain ⟨hyesErr,hnoErr⟩ := errors_of_branches htest hyes hno herr
    have ht := changes_of_gives htest stays_condition
    have hu := changes_of_gives hyes (stays_stmts r yes _)
    have hs := changes_of_gives hno (stays_stmts r no u)
    have het := agrees_condition htest he
    have heu := agrees_stmts yes hyes hyesErr het
    have hgu := hs.frame.trans hg
    have hyesJump : Stmt.Structured yes := fun y hy =>
      hjump y (List.mem_cons_of_mem _ (List.mem_append_left _ hy))
    have hnoJump : Stmt.Structured no := fun y hy =>
      hjump y (List.mem_cons_of_mem _ (List.mem_append_right _ hy))
    have hdoTest : S.Does steps s.frame.length testCode σ (eval S.host r.setting env cond)
        (fun v => v :: σ) := does_condition hr htest he (hu.frame.trans hgu) σ
    have hdoYes := (does_stmts hr yes hyes hyesErr het hgu hyesJump σ).below ht.frame.length_le
    rw [exec]
    cases no with
    | nil =>
      simp only [List.isEmpty_nil,if_true,List.append_nil,Nat.add_zero,execAll]
      exact Machine.Scene.does_option hdoTest hdoYes
    | cons y rest =>
      have hdoNo := (does_stmts hr (y :: rest) hno hnoErr heu hg hnoJump σ).below
        (ht.frame.trans hu.frame).length_le
      exact Machine.Scene.does_choice hdoTest hdoYes hdoNo
  | .whileDo line cond body, env, s, _, s', h, herr, he, hg, hjump, σ => by
    obtain ⟨bodyCode,t,testCode,hbody,htest,rfl⟩ := gives_whileDo.mp h
    have hbodyErr := errors_of_body hbody htest herr
    have hs := changes_of_gives htest stays_condition
    have het := agrees_stmts body hbody hbodyErr he
    have hbodyJump : Stmt.Structured body := fun y hy => hjump y (List.mem_cons_of_mem _ hy)
    have hdoBody := does_stmts hr body hbody hbodyErr he (hs.frame.trans hg) hbodyJump σ
    rw [exec]
    exact Machine.Scene.does_of_serves fun slots =>
      Machine.Scene.serves_rounds (hdoBody.keeps slots) ((does_condition hr htest het hg σ).keeps slots)
  | .repeatUntil line body cond, env, s, _, s', h, herr, he, hg, hjump, σ => by
    obtain ⟨bodyCode,t,testCode,hbody,htest,rfl⟩ := gives_repeatUntil.mp h
    have hbodyErr := errors_of_body hbody htest herr
    have hs := changes_of_gives htest stays_condition
    have het := agrees_stmts body hbody hbodyErr he
    have hbodyJump : Stmt.Structured body := fun y hy => hjump y (List.mem_cons_of_mem _ hy)
    have hdoBody := does_stmts hr body hbody hbodyErr he (hs.frame.trans hg) hbodyJump σ
    rw [exec]
    exact Machine.Scene.does_of_serves fun slots =>
      Machine.Scene.serves_repeats (hdoBody.keeps slots) ((does_condition hr htest het hg σ).keeps slots)
  | .forTo line var first last step body, env, s, _, s', h, herr, he, hg, hjump, σ => by
    obtain ⟨head,t,bodyCode,hhead,hbody,rfl⟩ := gives_forTo.mp h
    have hbodyErr := errors_of_forTo hhead hbody herr
    have hs := changes_of_gives hbody (stays_stmts r body _)
    have het := agrees_forHead hhead he
    have hbodyJump : Stmt.Structured body := fun y hy => hjump y (List.mem_cons_of_mem _ hy)
    rw [exec]
    exact does_forTo hr hhead he (hs.frame.trans hg) (does_stmts hr body hbody hbodyErr het hg hbodyJump σ)
  | .label line name, _, _, _, _, _, _, _, _, hjump, _ => by
    cases hjump _ List.mem_cons_self
  | .goto line name, _, _, _, _, _, _, _, _, hjump, _ => by
    cases hjump _ List.mem_cons_self
  | .ret line value, _, _, _, _, h, _, he, hg, _, σ => by
    rw [stmt] at h
    exact does_retStmt hr h he hg
  | .print line values, _, _, _, _, h, _, he, hg, _, σ => by
    rw [stmt] at h
    rw [exec]
    exact does_printAll hr values h he hg
  | .stop line, _, _, _, _, h, _, _, _, _, σ => by
    rw [stmt] at h
    rw [exec,(gives_pure.mp h).1]
    exact Machine.Scene.does_callOnly (show ([] : List Machine.Value).length = 0 from rfl)

theorem does_stmts (hr : r.resultName = none) : ∀ (xs : List Stmt) {env : ScopeStack} {s : State}
    {code : Code} {s' : State}, (stmts r xs).Gives s code s' → s'.errors = s.errors →
    s.Agrees env → s'.frame.Grows S.frame → Stmt.Structured xs → ∀ σ : List Machine.Value,
    S.Does steps s.frame.length code σ (execAll S.host r.setting steps env xs) (fun _ => σ)
  | [], _, _, _, _, h, _, _, _, _, σ => by
    rw [stmts] at h
    rw [execAll,(gives_pure.mp h).1]
    exact Machine.Scene.does_pure rfl
  | x :: rest, _, s, _, _, h, herr, he, hg, hjump, σ => by
    obtain ⟨first,t,more,hx,hxErr,hrest,hrestErr,rfl⟩ := stmts_cons_ok h herr
    have ht := changes_of_gives hx (stays_stmt r x s)
    have hs := changes_of_gives hrest (stays_stmts r rest t)
    have het := agrees_stmt x hx hxErr he
    rw [execAll]
    refine (does_stmt hr x hx hxErr he (hs.frame.trans hg)
      (fun y hy => hjump y (List.mem_append_left _ hy)) σ).append fun _ _ => ?_
    exact (does_stmts hr rest hrest hrestErr het hg
      (fun y hy => hjump y (List.mem_append_right _ hy)) σ).below ht.frame.length_le

end

end statements

end StackCompiler.Lowering
