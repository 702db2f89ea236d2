import Mathlib.Logic.Relation
import StackCompiler.Lowering.Unit
import StackCompiler.Proofs.Scopes

/-! How a step of lowering succeeds, and what it may do to the state.
A successful step is taken apart into the successes of its parts. Whether it succeeds or not, it
changes the state only in a few elementary ways, from which every invariant of the state is
derived. -/
/-- The step succeeds with a result and a new state. -/
def ExceptT.Gives {ε σ α : Type} (x : ExceptT ε (StateM σ) α) (s : σ) (a : α) (s' : σ) : Prop :=
  x.run s = (.ok a,s')

namespace StackCompiler.Lowering

section gives

variable {ε σ α β : Type} {s s' t : σ} {a b : α}

@[simp] theorem gives_pure : ExceptT.Gives (pure a : ExceptT ε (StateM σ) α) s b s' ↔
    b = a ∧ s' = s := by
  constructor
  · intro h; cases h; exact ⟨rfl,rfl⟩
  · rintro ⟨rfl,rfl⟩; rfl

theorem run_bind (x : ExceptT ε (StateM σ) α) (f : α → ExceptT ε (StateM σ) β) (s : σ) :
    (x >>= f).run s = match x.run s with
      | (.ok a,t) => (f a).run t
      | (.error d,t) => (.error d,t) := by
  rw [ExceptT.run_bind]
  simp only [bind,StateT.bind]
  rcases x.run s with ⟨_ | _,_⟩ <;> rfl

@[simp] theorem gives_bind {x : ExceptT ε (StateM σ) α} {f : α → ExceptT ε (StateM σ) β} {b : β} :
    (x >>= f).Gives s b s' ↔ ∃ a t, x.Gives s a t ∧ (f a).Gives t b s' := by
  simp only [ExceptT.Gives,run_bind]
  rcases x.run s with ⟨_ | _,_⟩ <;> grind

@[simp] theorem gives_map {x : ExceptT ε (StateM σ) α} {f : α → β} {b : β} :
    (f <$> x).Gives s b s' ↔ ∃ a, x.Gives s a s' ∧ b = f a := by
  rw [← bind_pure_comp,gives_bind]
  simp only [gives_pure]
  constructor
  · rintro ⟨a,t,hx,rfl,rfl⟩
    exact ⟨a,hx,rfl⟩
  · rintro ⟨a,hx,rfl⟩
    exact ⟨a,s',hx,rfl,rfl⟩

@[simp] theorem gives_ite {c : Prop} [Decidable c] {x y : ExceptT ε (StateM σ) α} :
    (if c then x else y).Gives s a s' ↔ c ∧ x.Gives s a s' ∨ ¬ c ∧ y.Gives s a s' := by
  split <;> simp [*]

@[simp] theorem gives_throw {d : ε} : ¬ (throw d : ExceptT ε (StateM σ) α).Gives s a s' := by
  intro h; cases h

@[simp] theorem gives_get {s₁ : σ} :
    (get : ExceptT ε (StateM σ) σ).Gives s s₁ s' ↔ s₁ = s ∧ s' = s := by
  constructor
  · intro h; cases h; exact ⟨rfl,rfl⟩
  · rintro ⟨rfl,rfl⟩; rfl

@[simp] theorem gives_set {u : PUnit} :
    (set t : ExceptT ε (StateM σ) PUnit).Gives s u s' ↔ s' = t := by
  constructor
  · intro h; cases h; rfl
  · rintro rfl; rfl

end gives

namespace Lower

section gives

variable {α β : Type} {s s' t : State} {a b : α}

@[simp] theorem gives_fail {line : Line} {cause : Cause} :
    ¬ (fail line cause : Lower α).Gives s a s' := by
  intro h; cases h

@[simp] theorem gives_lift {e : Except Diagnostic α} :
    (lift e).Gives s a s' ↔ e = .ok a ∧ s' = s := by
  cases e with
  | error d => constructor <;> intro h <;> cases h; contradiction
  | ok b => simp [lift,eq_comm]

@[simp] theorem gives_freshLabel {l : Label} :
    freshLabel.Gives s l s' ↔ l = s.nextLabel ∧ s' = { s with nextLabel := s.nextLabel + 1 } := by
  simp only [freshLabel,gives_bind,gives_get,gives_set,gives_pure]
  grind

@[simp] theorem gives_localSlot {name : String} {type : Ty} {n : Slot} :
    (localSlot name type).Gives s n s' ↔
      n = (s.frame.localVar name type).1 ∧
        s' = { s with frame := (s.frame.localVar name type).2 } := by
  simp only [localSlot,gives_bind,gives_get,gives_set,gives_pure]
  grind

@[simp] theorem gives_tempSlot {type : Ty} {n : Slot} :
    (tempSlot type).Gives s n s' ↔
      n = s.frame.length ∧ s' = { s with frame := s.frame.temp type } := by
  simp only [tempSlot,gives_bind,gives_get,gives_set,gives_pure]
  grind

theorem run_withScopes (step : ScopeStack → Except Diagnostic α × ScopeStack) (s : State) :
    (withScopes step).run s = ((step s.scopes).1,{ s with scopes := (step s.scopes).2 }) := by
  have hget : (withScopes step).run s =
      (lift (step s.scopes).1).run { s with scopes := (step s.scopes).2 } := rfl
  rw [hget]
  cases (step s.scopes).1 <;> rfl

@[simp] theorem gives_withScopes {step : ScopeStack → Except Diagnostic α × ScopeStack} :
    (withScopes step).Gives s a s' ↔
      ∃ scopes, step s.scopes = (.ok a,scopes) ∧ s' = { s with scopes } := by
  rw [ExceptT.Gives,run_withScopes]
  rcases step s.scopes with ⟨result,scopes⟩
  grind

@[simp] theorem gives_resolve {name : String} {line : Line} {found : Symbol × Nat} :
    (resolve name line).Gives s found s' ↔
      s.scopes.resolve name = some found ∧
        s' = { s with scopes := s.scopes.touch found line } := by
  simp only [resolve,gives_withScopes]
  grind

theorem run_recover (x : Lower Code) (s : State) :
    (recover x).run s = match x.run s with
      | (.ok code,t) => (.ok code,t)
      | (.error d,t) =>
        if d.isFatal then (.error d,t) else (.ok [],{ t with errors := t.errors ++ [d] }) := by
  simp only [recover,tryCatch,tryCatchThe,MonadExceptOf.tryCatch,ExceptT.tryCatch,ExceptT.run,
    ExceptT.mk,bind,StateT.bind,pure]
  rcases x s with ⟨d | code,t⟩
  · cases h : d.isFatal <;> simp [h] <;> rfl
  · rfl

/-- A step that is given up leaves no code; its diagnostic is recorded. -/
theorem gives_recover {x : Lower Code} {code : Code} :
    (recover x).Gives s code s' ↔ x.Gives s code s' ∨
      ∃ d t, x.run s = (.error d,t) ∧ d.isFatal = false ∧ code = [] ∧
        s' = { t with errors := t.errors ++ [d] } := by
  rw [ExceptT.Gives,ExceptT.Gives,run_recover]
  rcases x.run s with ⟨_ | _,_⟩ <;> grind

end gives
end Lower
end StackCompiler.Lowering

namespace StackCompiler

/-- If the step fails, another may be taken up. -/
def Mild {α : Type} (e : Except Diagnostic α) : Prop := ∀ d, e = .error d → d.isFatal = false

namespace Typing

theorem mild_assign {target value : Ty} {line : Line} : Mild (assign target value line) := by
  intro d h
  unfold assign at h
  grind [Diagnostic.isFatal,Cause.isFatal]

theorem mild_arguments {routine : Symbol} {line : Line} {i : Nat} {params args : List Ty} :
    Mild (arguments routine line i params args) := by
  intro d h
  fun_induction arguments routine line i params args with
  | case1 i param params arg args e he => cases h; rfl
  | case2 i param params arg args coercion hc ih =>
    cases hrest : arguments routine line (i + 1) params args with
    | ok cs => rw [hrest] at h; cases h
    | error d' => rw [hrest] at h; cases h; exact ih hrest
  | case3 => cases h

theorem mild_call {routine : Symbol} {args : List Ty} {line : Line} :
    Mild (call routine args line) := by
  intro d h
  unfold call at h
  split at h
  · cases h; rfl
  · split at h
    · cases h; rfl
    · exact mild_arguments d h

theorem mild_binary {language : Language} {op : BinaryOp} {left right : Ty} {line : Line} :
    Mild (binary language op left right line) := by
  intro d h
  unfold binary at h
  grind [Diagnostic.isFatal,Cause.isFatal]

theorem mild_unary {op : UnaryOp} {operand : Ty} {line : Line} : Mild (unary op operand line) := by
  intro d h
  unfold unary at h
  grind [Diagnostic.isFatal,Cause.isFatal]

theorem mild_expect {base : BaseType} {t : Ty} {line : Line} : Mild (expect base t line) := by
  intro d h
  unfold expect at h
  grind [Diagnostic.isFatal,Cause.isFatal]

end Typing

theorem Ty.validate_mild {t : Ty} {name : String} {cause : Cause}
    (h : t.validate name = .error cause) : cause.isFatal = false := by
  unfold validate at h
  grind [Cause.isFatal]

namespace ScopeStack

theorem mild_declare {s : ScopeStack} {symbol : Symbol} : Mild (s.declare symbol).1 := by
  intro d h
  unfold declare SymbolTable.declare at h
  cases hl : s.current.lookup symbol.name <;> rw [hl] at h <;> cases h
  rfl

theorem mild_share {s : ScopeStack} {name : String} {line : Line} : Mild (s.share name line).1 := by
  intro d h
  unfold share at h
  grind [Diagnostic.isFatal,Cause.isFatal]

end ScopeStack

namespace Lowering

theorem mild_declared {d : Declaration} : Mild (declared d) := by
  intro e h
  unfold declared at h
  grind [Diagnostic.isFatal,Cause.isFatal,Ty.validate_mild,Mild,Typing.mild_assign]

theorem mild_declare {d : Declaration} {scopes : ScopeStack} : Mild (declare d scopes).1 := by
  intro e h
  unfold declare at h
  split at h
  · next hd => cases h; exact mild_declared _ hd
  · exact ScopeStack.mild_declare e h

end Lowering
end StackCompiler

namespace StackCompiler.Lowering

/-- One elementary change of the state while the body of a routine is put into code. Only the given
declarations are made. -/
inductive State.Change (r : Routine) (D : Declaration → Prop) : State → State → Prop
  | label (s : State) : Change r D s { s with nextLabel := s.nextLabel + 1 }
  | record (s : State) {d : Diagnostic} (hd : d.isFatal = false) :
    Change r D s { s with errors := s.errors ++ [d] }
  | touch (s : State) (found : Symbol × Nat) (line : Line) :
    Change r D s { s with scopes := s.scopes.touch found line }
  | share {s : State} {name : String} {line : Line} {symbol : Symbol} {scopes : ScopeStack}
    (h : s.scopes.share name line = (.ok symbol,scopes)) : Change r D s { s with scopes }
  | declare {s : State} {d : Declaration} {symbol : Symbol} {scopes : ScopeStack}
    (hr : r.depth ≠ 0) (h : Lowering.declare d s.scopes = (.ok symbol,scopes)) (hd : D d) :
    Change r D s { s with scopes }
  | temp (s : State) (type : Ty) : Change r D s { s with frame := s.frame.temp type }
  | slot {s : State} {symbol : Symbol} (hsymbol : symbol.hasStorage = true)
    (howns : s.scopes.depth = r.depth → s.scopes.Owns symbol) :
    Change r D s { s with frame := (s.frame.localVar symbol.key symbol.type).2 }
  | result {s : State} {name : String} (h : r.resultName = some name) :
    Change r D s { s with frame := (s.frame.localVar name (.scalar r.returns)).2 }

abbrev State.Alters (r : Routine) (D : Declaration → Prop) : State → State → Prop :=
  Relation.ReflTransGen (State.Change r D)

abbrev State.Changes (r : Routine) : State → State → Prop := State.Alters r fun _ => True

section alters

variable {r : Routine} {D E : Declaration → Prop} {s s' : State}

theorem State.changes_labels (s : State) (n : Nat) :
    s.Changes r { s with nextLabel := s.nextLabel + n } := by
  induction n with
  | zero => exact .refl
  | succ n ih => exact ih.tail (.label _)

theorem State.Change.mono (h : ∀ d, D d → E d) (hs : State.Change r D s s') :
    State.Change r E s s' := by
  cases hs with
  | label => exact .label s
  | record hd => exact .record s hd
  | touch found line => exact .touch s found line
  | share hs => exact .share hs
  | declare hr hs hd => exact .declare hr hs (h _ hd)
  | temp type => exact .temp s type
  | slot hs ho => exact .slot hs ho
  | result hn => exact .result hn

theorem State.Alters.changes (h : s.Alters r D s') : s.Changes r s' :=
  Relation.ReflTransGen.mono (fun _ _ => State.Change.mono fun _ _ => trivial) _ _ h

end alters

namespace Lower

/-- From a state the step makes only elementary changes and the given declarations, whether it
succeeds or not, and it does not fail for good. -/
structure Keeps {α : Type} (r : Routine) (D : Declaration → Prop) (x : Lower α) (s : State) :
    Prop where
  alters : s.Alters r D (x.run s).2
  mild : Mild (x.run s).1

abbrev Stays {α : Type} (r : Routine) (x : Lower α) (s : State) : Prop := x.Keeps r (fun _ => True) s

section stays

variable {α β : Type} {r : Routine} {D : Declaration → Prop} {s s' : State} {a : α}

theorem alters_of_gives {x : Lower α} (h : x.Gives s a s') (hx : x.Keeps r D s) :
    s.Alters r D s' := by
  have hc := hx.alters
  rwa [h] at hc

theorem changes_of_gives {x : Lower α} (h : x.Gives s a s') (hx : x.Stays r s) : s.Changes r s' :=
  alters_of_gives h hx

/-- A step that succeeds stays if its changes are elementary. -/
theorem stays_of_gives {x : Lower α} (h : x.Gives s a s') (hc : s.Alters r D s') : x.Keeps r D s := by
  constructor
  · rw [h]
    exact hc
  · intro d hd
    rw [h] at hd
    cases hd

theorem stays_pure : Keeps r D (pure a) s := stays_of_gives (gives_pure.mpr ⟨rfl,rfl⟩) .refl

theorem stays_fail {line : Line} {cause : Cause} (hc : cause.isFatal = false) :
    Keeps r D (fail line cause : Lower α) s := by
  refine ⟨.refl,fun d hd => ?_⟩
  cases hd
  exact hc

theorem stays_get : Keeps r D (get : Lower State) s := stays_of_gives (gives_get.mpr ⟨rfl,rfl⟩) .refl

theorem stays_set {t : State} (h : s.Alters r D t) : Keeps r D (set t) s :=
  stays_of_gives (a := PUnit.unit) (gives_set.mpr rfl) h

theorem stays_lift {e : Except Diagnostic α} (he : Mild e) : Keeps r D (lift e) s := by
  cases e with
  | ok a => exact stays_pure
  | error d =>
    refine ⟨.refl,fun d' hd => ?_⟩
    cases hd
    exact he d rfl

theorem stays_bind {x : Lower α} {f : α → Lower β} (hx : x.Keeps r D s)
    (hf : ∀ a t, x.Gives s a t → (f a).Keeps r D t) : Keeps r D (x >>= f) s := by
  obtain ⟨hc,hm⟩ := hx
  rcases hrun : x.run s with ⟨d | a,t⟩
  · rw [hrun] at hc hm
    have hbind : (x >>= f).run s = (.error d,t) := by rw [run_bind,hrun]
    constructor
    · rw [hbind]
      exact hc
    · rw [hbind]
      rintro _ ⟨⟩
      exact hm d rfl
  · rw [hrun] at hc
    have hbind : (x >>= f).run s = (f a).run t := by rw [run_bind,hrun]
    obtain ⟨hc',hm'⟩ := hf a t hrun
    constructor
    · rw [hbind]
      exact hc.trans hc'
    · rwa [hbind]

theorem stays_freshLabel : Keeps r D freshLabel s :=
  stays_of_gives (gives_freshLabel.mpr ⟨rfl,rfl⟩) (.single (.label s))

theorem stays_tempSlot {type : Ty} : Keeps r D (tempSlot type) s :=
  stays_of_gives (gives_tempSlot.mpr ⟨rfl,rfl⟩) (.single (.temp s type))

theorem stays_localSlot {name : String} {type : Ty}
    (h : s.Alters r D { s with frame := (s.frame.localVar name type).2 }) :
    Keeps r D (localSlot name type) s :=
  stays_of_gives (gives_localSlot.mpr ⟨rfl,rfl⟩) h

theorem stays_withScopes {step : ScopeStack → Except Diagnostic α × ScopeStack}
    (h : ∀ a scopes, step s.scopes = (.ok a,scopes) → s.Alters r D { s with scopes })
    (hc : Cautious (step s.scopes) s.scopes) (he : Mild (step s.scopes).1) :
    Keeps r D (withScopes step) s := by
  rcases hstep : step s.scopes with ⟨d | a,scopes⟩
  · have hrun : (withScopes step).run s = (.error d,s) := by
      rw [run_withScopes,hstep,hc d scopes hstep]
    rw [hstep] at he
    constructor
    · rw [hrun]
    · rw [hrun]
      exact he
  · exact stays_of_gives (gives_withScopes.mpr ⟨scopes,hstep,rfl⟩) (h a scopes hstep)

theorem stays_resolve {name : String} {line : Line} : Keeps r D (resolve name line) s := by
  refine stays_withScopes (fun found scopes h => ?_) (fun d scopes h => ?_) fun d h => ?_
  · split at h
    · cases h
    · cases h
      exact .single (.touch s found line)
  · split at h <;> cases h
    rfl
  · split at h <;> cases h
    rfl

theorem stays_recover {x : Lower Code} (hx : x.Keeps r D s) : Keeps r D (recover x) s := by
  obtain ⟨hc,hm⟩ := hx
  rcases hrun : x.run s with ⟨d | code,t⟩
  · rw [hrun] at hc hm
    have hd := hm d rfl
    refine stays_of_gives (gives_recover.mpr (.inr ⟨d,t,hrun,hd,rfl,rfl⟩)) ?_
    exact hc.tail (.record t hd)
  · rw [hrun] at hc
    exact stays_of_gives (gives_recover.mpr (.inl hrun)) hc

end stays
end Lower
end StackCompiler.Lowering
