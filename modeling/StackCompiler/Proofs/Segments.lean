import StackCompiler.Proofs.Evaluation
import StackCompiler.Proofs.Frames

/-! What a stretch of code does.
A stretch does what an evaluation does if, wherever it stands and whatever lies below on the stack,
the machine comes to its end with the same variables, store and calls, and with the result on the
stack; or it ends early in the same way; or it runs on for at least as many steps as the evaluation
was given rounds. -/
namespace StackCompiler

open Evaluation

namespace Frame

variable {f : Frame} {slots slots' : Slot → Machine.Value} {key : String} {n : Slot}

def view (f : Frame) (slots : Slot → Machine.Value) (key : String) : Machine.Value :=
  ((f.slot? key).map slots).getD .nothing

/-- No variable has the slot. -/
def Nameless (f : Frame) (n : Slot) : Prop := ∀ key, f.slot? key ≠ some n

theorem view_of_slot? (h : f.slot? key = some n) : f.view slots key = slots n := by
  simp [view,h]

theorem eq_of_slot? (hf : f.Indexed) {key' : String} (h : f.slot? key = some n)
    (h' : f.slot? key' = some n) : key = key' := by
  obtain ⟨info,hinfo,hnames⟩ := getElem?_of_slot? hf h
  obtain ⟨info',hinfo',hnames'⟩ := getElem?_of_slot? hf h'
  obtain rfl : info = info' := Option.some.inj (hinfo.symm.trans hinfo')
  simpa using hnames.symm.trans hnames'

/-- Writing the slot of a variable changes that variable only. -/
theorem view_update (hf : f.Indexed) (h : f.slot? key = some n) (v : Machine.Value) :
    f.view (Function.update slots n v) = Function.update (f.view slots) key v := by
  funext k
  by_cases hk : k = key
  · subst hk
    rw [view_of_slot? h,Function.update_self,Function.update_self]
  · rw [Function.update_of_ne hk,view,view]
    cases hs : f.slot? k with
    | none => rfl
    | some m =>
      have hne : m ≠ n := fun he => hk (eq_of_slot? hf (he ▸ hs) h)
      rw [Option.map_some,Option.map_some,Function.update_of_ne hne]

theorem view_update_nameless (h : f.Nameless n) (v : Machine.Value) :
    f.view (Function.update slots n v) = f.view slots := by
  funext k
  rw [view,view]
  cases hs : f.slot? k with
  | none => rfl
  | some m =>
    have hne : m ≠ n := fun he => h k (he ▸ hs)
    rw [Option.map_some,Option.map_some,Function.update_of_ne hne]

theorem nameless_of_grows {g : Frame} {type : Ty} (h : (f.temp type).Grows g) (hg : g.Indexed) :
    g.Nameless f.length := by
  intro key hkey
  obtain ⟨info,hinfo,hnames⟩ := getElem?_of_slot? hg hkey
  obtain ⟨rest,rfl⟩ := h.slots
  rw [temp,push,List.append_assoc,List.getElem?_append_right (Nat.le_refl _),Nat.sub_self] at hinfo
  obtain rfl := Option.some.inj hinfo
  cases hnames

def Keeps (f : Frame) (bound : Nat) (slots slots' : Slot → Machine.Value) : Prop :=
  ∀ n < bound, f.Nameless n → slots' n = slots n

theorem Keeps.refl (f : Frame) (bound : Nat) (slots : Slot → Machine.Value) :
    f.Keeps bound slots slots := fun _ _ _ => rfl

theorem Keeps.trans {bound : Nat} {slots'' : Slot → Machine.Value} (h₁ : f.Keeps bound slots slots')
    (h₂ : f.Keeps bound slots' slots'') : f.Keeps bound slots slots'' :=
  fun n hn hname => (h₂ n hn hname).trans (h₁ n hn hname)

theorem Keeps.mono {bound bound' : Nat} (h : f.Keeps bound slots slots') (hle : bound' ≤ bound) :
    f.Keeps bound' slots slots' :=
  fun n hn hname => h n (Nat.lt_of_lt_of_le hn hle) hname

theorem keeps_update (h : f.slot? key = some n) (v : Machine.Value) (bound : Nat) :
    f.Keeps bound slots (Function.update slots n v) := by
  intro m _ hname
  have hne : m ≠ n := fun he => hname key (he ▸ h)
  exact Function.update_of_ne hne _ _

def Houses (f : Frame) : Home → Place → Prop
  | .global key, p => p = .global key
  | .own key, p => ∃ n, p = .slot n ∧ f.slot? key = some n

end Frame

namespace Machine

def Moment.world (m : Moment) (f : Frame) : World := ⟨f.view m.config.slots,m.store,m.calls⟩

def Moment.move (m : Moment) (pc : Nat) (stack : List Value) : Moment :=
  { m with config := { m.config with pc, stack } }

section houses

variable {f : Frame} {x : Home} {p : Place} {m : Moment}

theorem read_of_houses (h : f.Houses x p) :
    read m.config.slots m.store p = (m.world f).read x := by
  cases x with
  | global key =>
    obtain rfl : p = .global key := h
    rfl
  | own key =>
    obtain ⟨n,rfl,hn⟩ := h
    exact (Frame.view_of_slot? hn).symm

theorem write_of_houses (hf : f.Indexed) (h : f.Houses x p) (slots : Slot → Value) (s : Store)
    (calls : List Call) (v : Value) :
    World.write ⟨f.view slots,s,calls⟩ v x =
      ⟨f.view (assign slots (write s v p).1),(write s v p).2,calls⟩ := by
  cases x with
  | global key =>
    obtain rfl : p = .global key := h
    rfl
  | own key =>
    obtain ⟨n,rfl,hn⟩ := h
    exact congrArg (World.mk · s calls) (Frame.view_update hf hn v).symm

theorem keeps_of_houses (h : f.Houses x p) (slots : Slot → Value) (s : Store) (v : Value)
    (bound : Nat) : f.Keeps bound slots (assign slots (write s v p).1) := by
  cases x with
  | global key =>
    obtain rfl : p = .global key := h
    exact .refl f bound slots
  | own key =>
    obtain ⟨n,rfl,hn⟩ := h
    exact Frame.keeps_update hn v bound

end houses

/-- A routine that runs on a host: its code has every label once, and its slots are numbered. -/
structure Scene where
  host : Host
  code : Code
  frame : Frame
  labels : code.labels.Nodup
  indexed : frame.Indexed

namespace Scene

variable {α β : Type} (S : Scene)

/-- From the moment the machine comes to what evaluation comes to, without passing `stop` before:
to a moment with the property, to the same ending, or just through so many steps. -/
def Arrives (steps stop : Nat) (m : Moment) (Q : α → Moment → Prop) : Outcome α → Prop
  | .done a w => ∃ k m', Goes S.host S.code stop k m m' ∧ m'.world S.frame = w ∧ Q a m'
  | .ended e w => ∃ k m' m'', Goes S.host S.code stop k m m' ∧ m'.config.pc < stop ∧
      m'.step S.host S.code = .ended e m'' ∧ m''.world S.frame = w
  | .unfinished => ∃ k m', steps ≤ k ∧ Goes S.host S.code stop k m m'

variable {S} {steps stop stop' : Nat} {m m' : Moment}

theorem Arrives.mono {Q R : α → Moment → Prop} {out : Outcome α} {steps' : Nat}
    (h : S.Arrives steps stop m Q out) (hstop : stop ≤ stop') (hsteps : steps' ≤ steps)
    (hQ : ∀ a m', Q a m' → R a m') : S.Arrives steps' stop' m R out := by
  cases out with
  | done a w =>
    obtain ⟨k,m',hgoes,hw,ha⟩ := h
    exact ⟨k,m',hgoes.mono hstop,hw,hQ a m' ha⟩
  | ended e w =>
    obtain ⟨k,m',m'',hgoes,hpc,he,hw⟩ := h
    exact ⟨k,m',m'',hgoes.mono hstop,Nat.lt_of_lt_of_le hpc hstop,he,hw⟩
  | unfinished =>
    obtain ⟨k,m',hk,hgoes⟩ := h
    exact ⟨k,m',Nat.le_trans hsteps hk,hgoes.mono hstop⟩

theorem Arrives.after {Q : α → Moment → Prop} {out : Outcome α} {k steps' : Nat}
    (hgoes : Goes S.host S.code stop k m m') (h : S.Arrives steps stop m' Q out)
    (hsteps : steps' ≤ k + steps) : S.Arrives steps' stop m Q out := by
  cases out with
  | done a w =>
    obtain ⟨j,m'',hrest,hw,ha⟩ := h
    exact ⟨k + j,m'',hgoes.trans hrest,hw,ha⟩
  | ended e w =>
    obtain ⟨j,m₁,m₂,hrest,hpc,he,hw⟩ := h
    exact ⟨k + j,m₁,m₂,hgoes.trans hrest,hpc,he,hw⟩
  | unfinished =>
    obtain ⟨j,m'',hj,hrest⟩ := h
    exact ⟨k + j,m'',by omega,hgoes.trans hrest⟩

theorem Arrives.bind {Q : α → Moment → Prop} {R : β → Moment → Prop} {x : Eval α} {f : α → Eval β}
    {w : World} (hx : S.Arrives steps stop m Q (x w)) (hstop : stop ≤ stop')
    (hf : ∀ a m', x w = .done a (m'.world S.frame) → Q a m' →
      S.Arrives steps stop' m' R (f a (m'.world S.frame))) :
    S.Arrives steps stop' m R ((x >>= f) w) := by
  cases hxw : x w with
  | done a w' =>
    rw [hxw] at hx
    obtain ⟨k,m',hgoes,rfl,ha⟩ := hx
    rw [bind_of_done hxw]
    exact (hf a m' hxw ha).after (hgoes.mono hstop) (Nat.le_add_left _ _)
  | ended e w' =>
    rw [hxw] at hx
    obtain ⟨k,m₁,m₂,hgoes,hpc,he,hw⟩ := hx
    rw [bind_of_ended hxw]
    exact ⟨k,m₁,m₂,hgoes.mono hstop,Nat.lt_of_lt_of_le hpc hstop,he,hw⟩
  | unfinished =>
    rw [hxw] at hx
    obtain ⟨k,m',hk,hgoes⟩ := hx
    rw [bind_of_unfinished hxw]
    exact ⟨k,m',hk,hgoes.mono hstop⟩

variable (S) in
/-- On the stack `σ` the stretch of code does what the evaluation does and leaves the stack `τ`; the
nameless slots below the bound stay. -/
def Does (steps bound : Nat) (part : Code) (σ : List Value) (act : Eval α) (τ : α → List Value) :
    Prop :=
  ∀ m : Moment, S.code.Has m.config.pc part → m.config.stack = σ →
    S.Arrives steps (m.config.pc + part.length) m
      (fun a m' => m'.config.pc = m.config.pc + part.length ∧ m'.config.stack = τ a ∧
        S.frame.Keeps bound m.config.slots m'.config.slots)
      (act (m.world S.frame))

section does

variable {bound : Nat} {part : Code} {σ : List Value}

theorem does_pure {a : α} {τ : α → List Value} (hτ : τ a = σ) :
    S.Does steps bound [] σ (pure a) τ := by
  intro m _ hstack
  exact ⟨0,m,.refl m,rfl,rfl,hstack.trans hτ.symm,.refl _ _ _⟩

theorem Does.append {a b : Code} {x : Eval α} {f : α → Eval β} {τ : α → List Value}
    {υ : β → List Value} (hx : S.Does steps bound a σ x τ)
    (hf : ∀ v, (∃ w w', x w = .done v w') → S.Does steps bound b (τ v) (f v) υ) :
    S.Does steps bound (a ++ b) σ (x >>= f) υ := by
  intro m hcode hstack
  obtain ⟨ha,hb⟩ := Code.has_append.mp hcode
  rw [List.length_append,← Nat.add_assoc]
  refine (hx m ha hstack).bind (Nat.le_add_right _ _) fun v m' hv ⟨hpc,hstack',hkeeps⟩ => ?_
  rw [← hpc] at hb ⊢
  refine (hf v ⟨_,_,hv⟩ m' hb hstack').mono (Nat.le_refl _) (Nat.le_refl _) ?_
  rintro w m'' ⟨hpc',hstack'',hkeeps'⟩
  exact ⟨hpc',hstack'',hkeeps.trans hkeeps'⟩

/-- Code that only evaluates: the value needs no code of its own. -/
theorem Does.map {x : Eval α} {τ : α → List Value} {υ : β → List Value} {g : α → β}
    (hx : S.Does steps bound part σ x τ) (hτ : ∀ a, υ (g a) = τ a) :
    S.Does steps bound part σ (do let a ← x; pure (g a)) υ := by
  have h := hx.append (b := []) (f := fun a => pure (g a)) (υ := υ) fun v _ => does_pure (hτ v)
  rwa [List.append_nil] at h

theorem Does.below {bound' : Nat} {x : Eval α} {τ : α → List Value}
    (hx : S.Does steps bound' part σ x τ) (hle : bound ≤ bound') : S.Does steps bound part σ x τ := by
  intro m hcode hstack
  refine (hx m hcode hstack).mono (Nat.le_refl _) (Nat.le_refl _) ?_
  rintro a m' ⟨hpc,hstack',hkeeps⟩
  exact ⟨hpc,hstack',hkeeps.mono hle⟩

theorem does_instr {i : Instr} {act : Eval α} {τ : α → List Value}
    (h : ∀ m : Moment, m.config.stack = σ →
      (∃ a assigned t, exec S.host.operations m.config.slots m.store σ i = .go (τ a) assigned t ∧
        act (m.world S.frame) =
          .done a ⟨S.frame.view (Machine.assign m.config.slots assigned),t,m.calls⟩ ∧
        S.frame.Keeps bound m.config.slots (Machine.assign m.config.slots assigned)) ∨
      exec S.host.operations m.config.slots m.store σ i = .trap ∧
        act (m.world S.frame) = .ended .trapped (m.world S.frame)) :
    S.Does steps bound [i] σ act τ := by
  intro m hcode hstack
  have hi := (Code.has_cons.mp hcode).1
  have hpc : m.config.pc < m.config.pc + [i].length := Nat.lt_succ_self _
  have hstep : m.step S.host S.code = m.perform S.host (follow S.code m.config m.store
      (exec S.host.operations m.config.slots m.store σ i)) := by
    rw [Moment.step,step_of_getElem? hi,hstack]
  rcases h m hstack with ⟨a,assigned,t,hexec,hact,hkeeps⟩ | ⟨hexec,hact⟩
  · rw [hexec] at hstep
    rw [hact]
    exact ⟨1,_,.one hpc hstep,rfl,rfl,rfl,hkeeps⟩
  · rw [hexec] at hstep
    rw [hact]
    exact ⟨0,m,m,.refl m,hpc,hstep,rfl⟩

theorem does_push {i : Instr} {g : World → Option Value} {act : Eval Value} {rest : List Value}
    (hact : ∀ w, act w = orTrap (g w) w)
    (h : ∀ m : Moment, exec S.host.operations m.config.slots m.store σ i =
      .push rest m.store (g (m.world S.frame))) :
    S.Does steps bound [i] σ act (fun v => v :: rest) := by
  refine does_instr fun m _ => ?_
  rw [h m,hact]
  cases g (m.world S.frame) with
  | none => exact .inr ⟨rfl,rfl⟩
  | some v => exact .inl ⟨v,none,m.store,rfl,rfl,.refl _ _ _⟩

theorem does_const (l : Literal) :
    S.Does steps bound [.const l] σ (pure (.scalar l)) (fun v => v :: σ) :=
  does_push (g := fun _ => some (.scalar l)) (fun _ => rfl) fun _ => rfl

theorem does_unary (op : UnaryOp) (t : BaseType) (x : Value) :
    S.Does steps bound [.unary op t] (x :: σ) (orTrap (S.host.operations.unary op t x))
      (fun v => v :: σ) :=
  does_push (g := fun _ => S.host.operations.unary op t x) (fun _ => rfl) fun _ => rfl

theorem does_binary (op : BinaryOp) (t : BaseType) (x y : Value) :
    S.Does steps bound [.binary op t] (y :: x :: σ) (orTrap (S.host.operations.binary op t x y))
      (fun v => v :: σ) :=
  does_push (g := fun _ => S.host.operations.binary op t x y) (fun _ => rfl) fun _ => rfl

theorem does_convert (c : Coercion) (x : Value) :
    S.Does steps bound c.code (x :: σ) (convert S.host c x) (fun v => v :: σ) := by
  cases c with
  | keep => exact does_pure rfl
  | toDouble => exact does_push (g := fun _ => S.host.operations.convert x) (fun _ => rfl) fun _ => rfl

theorem does_pop (x : Value) : S.Does steps bound [.pop] (x :: σ) (pure ()) (fun _ => σ) :=
  does_instr fun m _ => .inl ⟨(),none,m.store,rfl,rfl,.refl _ _ _⟩

variable {x : Home} {p : Place}

theorem does_load (hx : S.frame.Houses x p) :
    S.Does steps bound [.load p] σ (load x) (fun v => v :: σ) := by
  refine does_push (g := fun w => some (w.read x)) (fun _ => rfl) fun m => ?_
  rw [← read_of_houses hx]
  rfl

theorem does_store (hx : S.frame.Houses x p) (v : Value) :
    S.Does steps bound [.store p] (v :: σ) (store x v) (fun _ => σ) := by
  refine does_instr fun m _ => .inl ⟨(),(write m.store v p).1,(write m.store v p).2,rfl,?_,?_⟩
  · exact congrArg (Outcome.done ()) (write_of_houses S.indexed hx _ _ _ v)
  · exact keeps_of_houses hx _ _ v bound

theorem take_reverse {values : List Value} {n : Nat} (hn : values.length = n) :
    ((values.reverse ++ σ).take n).reverse = values := by
  rw [List.take_left' (by rw [List.length_reverse,hn]),List.reverse_reverse]

theorem drop_reverse {values : List Value} {n : Nat} (hn : values.length = n) :
    (values.reverse ++ σ).drop n = σ :=
  List.drop_left' (by rw [List.length_reverse,hn])

theorem not_length_lt {values : List Value} {n : Nat} (hn : values.length = n) :
    ¬ (values.reverse ++ σ).length < n := by
  rw [List.length_append,List.length_reverse]
  omega

theorem does_element (hx : S.frame.Houses x p) {values : List Value} {n : Nat}
    (hn : values.length = n) :
    S.Does steps bound [.loadElement p n] (values.reverse ++ σ) (element x values)
      (fun v => v :: σ) := by
  refine does_push (g := fun w => w.store.element? (w.read x) values) (fun _ => rfl) fun m => ?_
  rw [exec,if_neg (not_length_lt hn),take_reverse hn,drop_reverse hn,read_of_houses hx]
  rfl

theorem does_setElement (hx : S.frame.Houses x p) {values : List Value} {n : Nat}
    (hn : values.length = n) (v : Value) :
    S.Does steps bound [.storeElement p n] (v :: (values.reverse ++ σ)) (setElement x values v)
      (fun _ => σ) := by
  refine does_instr fun m _ => ?_
  cases hs : m.store.setElement? ((m.world S.frame).read x) values v with
  | none =>
    refine .inr ⟨?_,?_⟩
    · simp only [exec,if_neg (not_length_lt hn),take_reverse hn,read_of_houses hx,hs]
    · simp only [setElement,Moment.world] at hs ⊢
      rw [hs]
  | some t =>
    refine .inl ⟨(),none,t,?_,?_,.refl _ _ _⟩
    · simp only [exec,if_neg (not_length_lt hn),take_reverse hn,drop_reverse hn,read_of_houses hx,hs]
    · simp only [setElement,Moment.world] at hs ⊢
      rw [hs]
      rfl

theorem does_checkBounds (hx : S.frame.Houses x p) (dim : Nat) (v : Value) :
    S.Does steps bound [.checkBounds p dim] (v :: σ) (checkBounds x dim v) (fun _ => v :: σ) := by
  refine does_instr fun m _ => ?_
  by_cases hb : m.store.inBounds ((m.world S.frame).read x) dim v = true
  · refine .inl ⟨(),none,m.store,?_,if_pos hb,.refl _ _ _⟩
    rw [exec,read_of_houses hx,if_pos hb]
  · refine .inr ⟨?_,if_neg hb⟩
    rw [exec,read_of_houses hx,if_neg hb]

theorem does_makeArray (hx : S.frame.Houses x p) (element : BaseType) {values : List Value} {n : Nat}
    (hn : values.length = n) :
    S.Does steps bound [.alloc p element n] (values.reverse ++ σ) (makeArray x element values)
      (fun _ => σ) := by
  refine does_instr fun m _ => ?_
  cases ha : m.store.allocate? element values with
  | none =>
    refine .inr ⟨?_,?_⟩
    · simp only [exec,if_neg (not_length_lt hn),take_reverse hn,ha]
    · simp only [makeArray,Moment.world,ha]
  | some r =>
    obtain ⟨v,t⟩ := r
    refine .inl ⟨(),(write t v p).1,(write t v p).2,?_,?_,keeps_of_houses hx _ _ v bound⟩
    · simp only [exec,if_neg (not_length_lt hn),take_reverse hn,drop_reverse hn,ha]
    · simp only [makeArray,Moment.world,ha]
      exact congrArg (Outcome.done ()) (write_of_houses S.indexed hx _ _ _ v)

theorem step_call {target : CallTarget} {values : List Value} {n : Nat} {returns : Bool}
    (hn : values.length = n) (hi : S.code[m.config.pc]? = some (.call target n returns))
    (hstack : m.config.stack = values.reverse ++ σ) :
    m.step S.host S.code =
      m.perform S.host (.call target values returns ⟨m.config.pc + 1,σ,m.config.slots⟩) := by
  rw [Moment.step,step_of_getElem? hi,hstack,exec,if_neg (not_length_lt hn),take_reverse hn,
    drop_reverse hn]
  rfl

theorem arrives_halt {target : CallTarget} {values : List Value} {returns : Bool} {c : Config}
    {e : Ending} {t : Store} {Q : β → Moment → Prop} {f : Option Value → Eval β}
    (hpc : m.config.pc < stop)
    (hstep : m.step S.host S.code = m.perform S.host (.call target values returns c))
    (ha : S.host.answer (m.calls ++ [⟨target,values,m.store⟩]) = .halt e t) :
    S.Arrives steps stop m Q ((ask S.host target values >>= f) (m.world S.frame)) := by
  rw [bind_of_ended (ask_of_halt ha)]
  rw [Moment.perform] at hstep
  simp only [ha] at hstep
  exact ⟨0,m,_,.refl m,hpc,hstep,rfl⟩

theorem does_callFor {target : CallTarget} {values : List Value} {n : Nat}
    (hn : values.length = n) :
    S.Does steps bound [.call target n true] (values.reverse ++ σ) (callFor S.host target values)
      (fun v => v :: σ) := by
  intro m hcode hstack
  have hpc : m.config.pc < m.config.pc + 1 := Nat.lt_succ_self _
  have hstep := step_call hn (Code.has_cons.mp hcode).1 hstack
  cases ha : S.host.answer (m.calls ++ [⟨target,values,m.store⟩]) with
  | halt e t => exact arrives_halt hpc hstep ha
  | resume t v =>
    rw [callFor,bind_of_done (ask_of_resume ha)]
    rw [Moment.perform] at hstep
    cases v with
    | none =>
      simp only [ha,Config.resume] at hstep
      exact ⟨0,m,_,.refl m,hpc,hstep,rfl⟩
    | some v =>
      simp only [ha,Config.resume] at hstep
      exact ⟨1,_,.one hpc hstep,rfl,rfl,rfl,.refl _ _ _⟩

theorem does_callOnly {target : CallTarget} {values : List Value} {n : Nat}
    (hn : values.length = n) :
    S.Does steps bound [.call target n false] (values.reverse ++ σ) (callOnly S.host target values)
      (fun _ => σ) := by
  intro m hcode hstack
  have hpc : m.config.pc < m.config.pc + 1 := Nat.lt_succ_self _
  have hstep := step_call hn (Code.has_cons.mp hcode).1 hstack
  cases ha : S.host.answer (m.calls ++ [⟨target,values,m.store⟩]) with
  | halt e t => exact arrives_halt hpc hstep ha
  | resume t v =>
    rw [callOnly,bind_of_done (ask_of_resume ha)]
    rw [Moment.perform] at hstep
    simp only [ha,Config.resume] at hstep
    exact ⟨1,_,.one hpc hstep,rfl,rfl,rfl,.refl _ _ _⟩

theorem does_ret {v : Option Value} {value : Bool} {τ : α → List Value}
    (h : ∀ m : Moment, exec S.host.operations m.config.slots m.store σ (.ret value) = .ret v) :
    S.Does steps bound [.ret value] σ (finish (.returned v)) τ := by
  intro m hcode hstack
  have hpc : m.config.pc < m.config.pc + 1 := Nat.lt_succ_self _
  refine ⟨0,m,m,.refl m,hpc,?_,rfl⟩
  rw [Moment.step,step_of_getElem? (Code.has_cons.mp hcode).1,hstack,h m]
  rfl

theorem goes_label {l : Label} (hpc : m.config.pc < stop)
    (hi : S.code[m.config.pc]? = some (.label l)) :
    Goes S.host S.code stop 1 m (m.move (m.config.pc + 1) m.config.stack) := by
  refine .one hpc ?_
  rw [Moment.step,step_of_getElem? hi]
  rfl

theorem goes_branch {l : Label} {n : Nat} (hpc : m.config.pc < stop)
    (hi : S.code[m.config.pc]? = some (.branch l)) (hl : S.code[n]? = some (.label l)) :
    Goes S.host S.code stop 1 m (m.move n m.config.stack) := by
  refine .one hpc ?_
  rw [Moment.step,step_of_getElem? hi,exec,follow,target?_of_nodup S.labels hl]
  rfl

theorem goes_branchIf {l : Label} {n : Nat} {flag : Bool} {v : Value} (hpc : m.config.pc < stop)
    (hi : S.code[m.config.pc]? = some (.branchIf flag l)) (hl : S.code[n]? = some (.label l))
    (hstack : m.config.stack = v :: σ) :
    Goes S.host S.code stop 1 m
      (m.move (if v = .scalar (.boolean flag) then n else m.config.pc + 1) σ) := by
  refine .one hpc ?_
  rw [Moment.step,step_of_getElem? hi,hstack,exec]
  split
  · rw [follow,target?_of_nodup S.labels hl]
    rfl
  · rfl

end does

end Scene
end Machine
end StackCompiler
