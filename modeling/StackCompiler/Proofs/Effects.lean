import StackCompiler.Proofs.Machine

/-! What one instruction can do.
The effects are listed once, each with what it needs of the stack, the variables and the arrays; what
is said of every instruction goes through this list. An instruction that goes on changes at most one
variable or one array. -/
namespace StackCompiler.Machine

/-- The effects of an instruction on a stack. Where an operator, an array or a check has no result the
machine traps. -/
inductive Executes (o : Operations) (slots : Slot → Value) (s : Store) :
    Instr → List Value → Effect → Prop
  | starved {i : Instr} {stack : List Value} (h : stack.length < i.pops) (hi : i ≠ .ret true) :
    Executes o slots s i stack .underflow
  | unchecked (p : Place) (dim : Nat) : Executes o slots s (.checkBounds p dim) [] .underflow
  | trap (i : Instr) (stack : List Value) : Executes o slots s i stack .trap
  | const (l : Literal) (stack : List Value) :
    Executes o slots s (.const l) stack (.go (.scalar l :: stack) none s)
  | load (p : Place) (stack : List Value) :
    Executes o slots s (.load p) stack (.go (read slots s p :: stack) none s)
  | store (p : Place) (v : Value) (rest : List Value) :
    Executes o slots s (.store p) (v :: rest) (.go rest (write s v p).1 (write s v p).2)
  | loadElement {p : Place} {n : Nat} {stack : List Value} {v : Value} (hn : n ≤ stack.length)
    (hv : s.element? (read slots s p) (stack.take n).reverse = some v) :
    Executes o slots s (.loadElement p n) stack (.go (v :: stack.drop n) none s)
  | storeElement {p : Place} {n : Nat} {v : Value} {rest : List Value} {t : Store}
    (hn : n ≤ rest.length) (ht : s.setElement? (read slots s p) (rest.take n).reverse v = some t) :
    Executes o slots s (.storeElement p n) (v :: rest) (.go (rest.drop n) none t)
  | checkBounds {p : Place} {dim : Nat} {v : Value} {rest : List Value}
    (hin : s.inBounds (read slots s p) dim v = true) :
    Executes o slots s (.checkBounds p dim) (v :: rest) (.go (v :: rest) none s)
  | alloc {p : Place} {element : BaseType} {n : Nat} {stack : List Value} {v : Value} {t : Store}
    (hn : n ≤ stack.length) (ht : s.allocate? element (stack.take n).reverse = some (v,t)) :
    Executes o slots s (.alloc p element n) stack
      (.go (stack.drop n) (write t v p).1 (write t v p).2)
  | binary {op : BinaryOp} {b : BaseType} {x y w : Value} {rest : List Value}
    (hw : o.binary op b x y = some w) :
    Executes o slots s (.binary op b) (y :: x :: rest) (.go (w :: rest) none s)
  | unary {op : UnaryOp} {b : BaseType} {x w : Value} {rest : List Value}
    (hw : o.unary op b x = some w) :
    Executes o slots s (.unary op b) (x :: rest) (.go (w :: rest) none s)
  | convert {x w : Value} {rest : List Value} (hw : o.convert x = some w) :
    Executes o slots s .convert (x :: rest) (.go (w :: rest) none s)
  | call {target : CallTarget} {n : Nat} {returns : Bool} {stack : List Value}
    (hn : n ≤ stack.length) : Executes o slots s (.call target n returns) stack
      (.call target (stack.take n).reverse returns (stack.drop n))
  | dup (v : Value) (rest : List Value) :
    Executes o slots s .dup (v :: rest) (.go (v :: v :: rest) none s)
  | pop (v : Value) (rest : List Value) : Executes o slots s .pop (v :: rest) (.go rest none s)
  | label (l : Label) (stack : List Value) : Executes o slots s (.label l) stack (.go stack none s)
  | branch (l : Label) (stack : List Value) : Executes o slots s (.branch l) stack (.jump l stack)
  | taken (flag : Bool) (l : Label) (rest : List Value) :
    Executes o slots s (.branchIf flag l) (.scalar (.boolean flag) :: rest) (.jump l rest)
  | passed {flag : Bool} {l : Label} {v : Value} {rest : List Value}
    (hv : v ≠ .scalar (.boolean flag)) :
    Executes o slots s (.branchIf flag l) (v :: rest) (.go rest none s)
  | leave (stack : List Value) : Executes o slots s (.ret false) stack (.ret none)
  | giveBack (stack : List Value) : Executes o slots s (.ret true) stack (.ret stack.head?)

section effects

variable {o : Operations} {slots : Slot → Value} {s : Store} {stack : List Value} {i : Instr}

theorem Executes.push {rest : List Value} {v : Option Value}
    (h : ∀ w, v = some w → Executes o slots s i stack (.go (w :: rest) none s)) :
    Executes o slots s i stack (Effect.push rest s v) := by
  cases v with
  | none => exact .trap i stack
  | some w => exact h w rfl

theorem executes_exec (o : Operations) (slots : Slot → Value) (s : Store) (stack : List Value)
    (i : Instr) : Executes o slots s i stack (exec o slots s stack i) := by
  cases i with
  | const l => exact .const l stack
  | load p => exact .load p stack
  | label l => exact .label l stack
  | branch l => exact .branch l stack
  | ret value =>
    cases value with
    | false => exact .leave stack
    | true => exact .giveBack stack
  | store p =>
    cases stack with
    | nil => exact .starved Nat.one_pos (by simp)
    | cons v rest => exact .store p v rest
  | dup =>
    cases stack with
    | nil => exact .starved Nat.one_pos (by simp)
    | cons v rest => exact .dup v rest
  | pop =>
    cases stack with
    | nil => exact .starved Nat.one_pos (by simp)
    | cons v rest => exact .pop v rest
  | unary op b =>
    cases stack with
    | nil => exact .starved Nat.one_pos (by simp)
    | cons x rest => exact .push fun w hw => .unary hw
  | convert =>
    cases stack with
    | nil => exact .starved Nat.one_pos (by simp)
    | cons x rest => exact .push fun w hw => .convert hw
  | binary op b =>
    rcases stack with _ | ⟨y,_ | ⟨x,rest⟩⟩
    · exact .starved Nat.two_pos (by simp)
    · exact .starved Nat.one_lt_two (by simp)
    · exact .push fun w hw => .binary hw
  | loadElement p n =>
    simp only [exec]
    split
    · next hlt => exact .starved hlt (by simp)
    · next hn => exact .push fun w hw => .loadElement (Nat.not_lt.mp hn) hw
  | storeElement p n =>
    cases stack with
    | nil => exact .starved (Nat.succ_pos n) (by simp)
    | cons v rest =>
      simp only [exec]
      split
      · next hlt => exact .starved (Nat.succ_lt_succ hlt) (by simp)
      · next hn =>
        split
        · exact .trap _ _
        · next t ht => exact .storeElement (Nat.not_lt.mp hn) ht
  | checkBounds p dim =>
    cases stack with
    | nil => exact .unchecked p dim
    | cons v rest =>
      simp only [exec]
      split
      · next hin => exact .checkBounds hin
      · exact .trap _ _
  | alloc p element n =>
    simp only [exec]
    split
    · next hlt => exact .starved hlt (by simp)
    · next hn =>
      split
      · exact .trap _ _
      · next v t ht => exact .alloc (Nat.not_lt.mp hn) ht
  | call target n returns =>
    simp only [exec]
    split
    · next hlt => exact .starved hlt (by simp)
    · next hn => exact .call (Nat.not_lt.mp hn)
  | branchIf flag l =>
    cases stack with
    | nil => exact .starved Nat.one_pos (by simp)
    | cons v rest =>
      simp only [exec]
      split
      · next hv => exact hv ▸ .taken flag l rest
      · next hv => exact .passed hv

theorem executes_of {e : Effect} (h : exec o slots s stack i = e) : Executes o slots s i stack e :=
  h ▸ executes_exec o slots s stack i

end effects

section steps

variable {o : Operations} {code : Code} {c d : Config} {s t : Store}

/-- A routine goes on behind an instruction or at the label that it jumps to. -/
theorem step_eq_next (h : step o code c s = .next d t) :
    ∃ i, code[c.pc]? = some i ∧
      ((∃ stack assigned, exec o c.slots s c.stack i = .go stack assigned t ∧
        d = ⟨c.pc + 1,stack,assign c.slots assigned⟩) ∨
      ∃ l stack n, exec o c.slots s c.stack i = .jump l stack ∧ target? l code = some n ∧
        d = ⟨n,stack,c.slots⟩ ∧ t = s) := by
  unfold step at h
  split at h
  · cases h
  · next i hi =>
    refine ⟨i,hi,?_⟩
    cases he : exec o c.slots s c.stack i with
    | go stack assigned =>
      rw [he] at h
      cases h
      exact .inl ⟨stack,assigned,rfl,rfl⟩
    | jump l stack =>
      rw [he,follow] at h
      split at h
      · next n hn =>
        cases h
        exact .inr ⟨l,stack,n,rfl,hn,rfl,rfl⟩
      · cases h
    | call | ret | trap | underflow =>
      rw [he] at h
      cases h

theorem step_eq_call {target : CallTarget} {args : List Value} {returns : Bool}
    (h : step o code c s = .call target args returns d) :
    ∃ i stack, code[c.pc]? = some i ∧ exec o c.slots s c.stack i = .call target args returns stack ∧
      d = ⟨c.pc + 1,stack,c.slots⟩ := by
  unfold step at h
  split at h
  · cases h
  · next i hi =>
    cases he : exec o c.slots s c.stack i with
    | call target' args' returns' stack =>
      rw [he] at h
      cases h
      exact ⟨i,stack,hi,he,rfl⟩
    | jump l stack =>
      rw [he,follow] at h
      split at h <;> cases h
    | go | ret | trap | underflow =>
      rw [he] at h
      cases h

theorem Config.resume_eq_some {returns : Bool} {v : Option Value} (h : c.resume returns v = some d) :
    d.pc = c.pc ∧ d.slots = c.slots ∧ d.stack.length = c.stack.length + returns.toNat := by
  cases returns <;> cases v <;> cases h <;> exact ⟨rfl,rfl,rfl⟩

theorem Config.resume_elsewhere {returns : Bool} {v : Option Value}
    (h : c.resume returns v = some d) (pc : Nat) (slots : Slot → Value) :
    Config.resume ⟨pc,c.stack,slots⟩ returns v = some ⟨pc,d.stack,slots⟩ := by
  cases returns <;> cases v <;> cases h <;> rfl

end steps

section stores

variable {slots : Slot → Value} {s t : Store} {array v : Value}

theorem Store.setElement?_eq_some {subscripts : List Value}
    (h : s.setElement? array subscripts v = some t) :
    ∃ a b elements, s.arrays[a]? = some b ∧
      t = { s with arrays := s.arrays.set a { b with elements } } := by
  unfold setElement? at h
  simp only [Option.bind_eq_bind,Option.bind_eq_some_iff] at h
  obtain ⟨b,hb,is,_,h⟩ := h
  cases array with
  | array a =>
    simp only [Option.ite_none_right_eq_some,Option.some.injEq] at h
    exact ⟨a,b,_,hb,h.2.symm⟩
  | scalar | nothing => cases hb

theorem Store.allocate?_eq_some {element : BaseType} {extents : List Value} {array : Value}
    (h : s.allocate? element extents = some (array,t)) :
    ∃ b, extents.mapM Value.integer? = some b.extents ∧ array = .array s.arrays.length ∧
      t = { s with arrays := s.arrays ++ [b] } := by
  unfold allocate? at h
  simp only [Option.bind_eq_bind,Option.bind_eq_some_iff,Option.some.injEq,Prod.mk.injEq] at h
  obtain ⟨es,hes,rfl,rfl⟩ := h
  exact ⟨_,hes,rfl,rfl⟩

theorem read_write_of_ne (hs : t.globals = s.globals) (v : Value) {p q : Place} (h : p ≠ q) :
    read (assign slots (write t v q).1) (write t v q).2 p = read slots s p := by
  cases p with
  | slot n =>
    cases q with
    | slot m => exact Function.update_of_ne (fun he => h (congrArg Place.slot he)) _ _
    | global => rfl
  | global a =>
    cases q with
    | slot => exact congrFun hs a
    | global b =>
      have hne : a ≠ b := fun he => h (congrArg Place.global he)
      exact (Function.update_of_ne hne _ _).trans (congrFun hs a)

/-- What an instruction that goes on does to variables and arrays. -/
inductive Writes (s : Store) (stack : List Value) :
    Instr → Option (Slot × Value) → Store → Prop
  | nothing {i : Instr} (hi : ∀ p element n, i ≠ .alloc p element n) : Writes s stack i none s
  | store (p : Place) (v : Value) : Writes s stack (.store p) (write s v p).1 (write s v p).2
  | element {p : Place} {n : Nat} {array v : Value} {subscripts : List Value} {t : Store}
    (h : s.setElement? array subscripts v = some t) : Writes s stack (.storeElement p n) none t
  | alloc {p : Place} {element : BaseType} {n : Nat} {array : Value} {t : Store}
    (h : s.allocate? element (stack.take n).reverse = some (array,t)) :
    Writes s stack (.alloc p element n) (write t array p).1 (write t array p).2

theorem writes_exec {o : Operations} {stack stack' : List Value} {i : Instr}
    {assigned : Option (Slot × Value)} (he : exec o slots s stack i = .go stack' assigned t) :
    Writes s stack i assigned t := by
  cases executes_of he with
  | store p v => exact .store p v
  | storeElement _ ht => exact .element ht
  | alloc _ ht => exact .alloc ht
  | _ => exact .nothing (by simp)

/-- A variable changes only where it is stored to or an array is made for it. -/
theorem Writes.read {stack : List Value} {i : Instr} {assigned : Option (Slot × Value)}
    (h : Writes s stack i assigned t) (slots : Slot → Value) (p : Place) :
    read (assign slots assigned) t p = read slots s p ∨ i = .store p ∨
      ∃ element n, i = .alloc p element n := by
  cases h with
  | nothing => exact .inl rfl
  | store q v =>
    by_cases hq : p = q
    · exact .inr (.inl (congrArg Instr.store hq.symm))
    · exact .inl (read_write_of_ne rfl v hq)
  | element hset =>
    obtain ⟨_,_,_,_,rfl⟩ := Store.setElement?_eq_some hset
    exact .inl (by cases p <;> rfl)
  | @alloc q element n array t hnew =>
    by_cases hq : p = q
    · exact .inr (.inr ⟨element,n,by rw [hq]⟩)
    · obtain ⟨_,_,_,rfl⟩ := Store.allocate?_eq_some hnew
      exact .inl (read_write_of_ne rfl array hq)

end stores

end StackCompiler.Machine
