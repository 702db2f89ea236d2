import StackCompiler.Proofs.ValueKeys

/-! The symbolic stack along every run.
Wherever control comes, the known values on top of the symbolic stack are the values on top of the
real one, and the values that could be kept exist. Labels are where paths meet: there the stack is
empty and nothing is claimed of the values that could be kept. -/
namespace StackCompiler.Reuse

open Machine

/-- The values on the stack are those of the entries, from the top down to the first value of which
nothing is known or that was compared with bounds. -/
inductive Values (o : Operations) (slots : Slot → Value) (s : Store) :
    List Entry → List Mark → List Value → Prop
  | nil : Values o slots s [] [] []
  | known {k : ValueKey} {start : Nat} {v : Value} {es : List Entry} {ms : List Mark}
    {vs : List Value} (hv : k.eval o slots s = some v) (hrest : Values o slots s es ms vs) :
    Values o slots s (⟨some k,start⟩ :: es) (.plain :: ms) (v :: vs)
  | stop {e : Entry} {m : Mark} {v : Value} {es : List Entry} {ms : List Mark} {vs : List Value}
    (he : e.value = none ∨ m = .checked) (hlen : vs.length = ms.length) :
    Values o slots s (e :: es) (m :: ms) (v :: vs)

section values

variable {o : Operations} {slots : Slot → Value} {s t : Store} {es : List Entry}
  {ms ms' : List Mark} {vs vs' : List Value}

theorem Values.length_eq (h : Values o slots s es ms vs) : vs.length = ms.length := by
  induction h with
  | nil => rfl
  | known _ _ ih => simp [ih]
  | stop _ hlen => simp [hlen]

theorem values_empty (hes : es.length = ms.length) (hvs : vs.length = ms.length) (hms : ms = []) :
    Values o slots s es ms vs := by
  subst hms
  rw [List.length_eq_zero_iff.mp hes,List.length_eq_zero_iff.mp hvs]
  exact .nil

theorem values_unknown {e : Entry} (he : e.value = none) (hvs : vs.length = ms.length + 1) :
    Values o slots s (e :: es) (.plain :: ms) vs := by
  obtain ⟨v,rest,rfl⟩ := List.exists_cons_of_length_eq_add_one hvs
  exact .stop (.inl he) (Nat.succ.inj hvs)

theorem Values.top {e : Entry} {v : Value} (h : Values o slots s (e :: es) (.plain :: ms) (v :: vs))
    {k : ValueKey} (hk : e.value = some k) :
    k.eval o slots s = some v ∧ Values o slots s es ms vs := by
  cases h with
  | known hv hrest =>
    obtain rfl := Option.some.inj hk
    exact ⟨hv,hrest⟩
  | stop he =>
    rcases he with he | he
    · rw [hk] at he
      cases he
    · cases he

theorem values_operator {e : Entry} {x w : Value}
    (h : Values o slots s (e :: es) (.plain :: ms) (x :: vs)) {f : ValueKey → ValueKey}
    {operator : Value → Option Value}
    (hf : ∀ k, (f k).eval o slots s = (k.eval o slots s).bind operator) (hw : operator x = some w) :
    Values o slots s (⟨e.value.map f,e.start⟩ :: es) (.plain :: ms) (w :: vs) := by
  cases hk : e.value with
  | none => exact .stop (.inl rfl) (Nat.succ.inj h.length_eq)
  | some k =>
    obtain ⟨hv,hrest⟩ := h.top hk
    refine .known ?_ hrest
    rw [hf,hv]
    exact hw

theorem values_binary {op : BinaryOp} {b : BaseType} {x y : Entry} {u v w : Value}
    (h : Values o slots s (y :: x :: es) (.plain :: .plain :: ms) (v :: u :: vs))
    (hw : o.binary op b u v = some w) :
    Values o slots s (⟨Entry.combine op b x y,x.start⟩ :: es) (.plain :: ms) (w :: vs) := by
  have hlen : vs.length = ms.length := Nat.succ.inj (Nat.succ.inj h.length_eq)
  cases hx : x.value with
  | none => exact .stop (.inl (by simp [Entry.combine,hx])) hlen
  | some kx =>
    cases hy : y.value with
    | none => exact .stop (.inl (by simp [Entry.combine,hx,hy])) hlen
    | some ky =>
      obtain ⟨hyv,hrest⟩ := h.top hy
      obtain ⟨hxv,hrest⟩ := hrest.top hx
      rw [show Entry.combine op b x y = some (.binary op b kx ky) by simp [Entry.combine,hx,hy]]
      refine .known ?_ hrest
      simp [ValueKey.eval,hxv,hyv,hw]

theorem Values.step {scan : Scan} {n : Nat} {i : Instr} {assigned : Option (Slot × Value)}
    (h : Values o slots s scan.stack ms vs) (hes : scan.stack.length = ms.length)
    (hb : i.isBoundary = false) (hi : i.Shaped ms) (hgo : exec o slots s vs i = .go vs' assigned t) :
    Values o (assign slots assigned) t (scan.step i n).stack (i.remark ms) vs' := by
  have hlength : (scan.step i n).stack.length = (i.remark ms).length := by
    rw [length_step hb,Instr.length_remark,hes]
  have hvs : vs'.length = (i.remark ms).length := by
    have hleaves := exec_leaves o slots s vs i
    rw [hgo,h.length_eq,Effect.Leaves,← Instr.length_remark] at hleaves
    exact hleaves
  cases executes_of hgo with
  | const | load => exact .known rfl h
  | unary hw | convert hw =>
    obtain ⟨st,rfl⟩ : ∃ st, ms = .plain :: st := hi.operands rfl
    obtain ⟨e,es,hes⟩ := List.exists_cons_of_length_eq_add_one hes
    rw [hes] at h
    simp only [Scan.step,Scan.push,Scan.drop,Scan.top,hes]
    exact values_operator h (fun _ => rfl) hw
  | binary hw =>
    obtain ⟨st,rfl⟩ : ∃ st, ms = .plain :: .plain :: st := hi.operands rfl
    obtain ⟨y,es,hstack⟩ := List.exists_cons_of_length_eq_add_one hes
    rw [hstack] at h hes
    obtain ⟨x,es,rfl⟩ := List.exists_cons_of_length_eq_add_one (Nat.succ.inj hes)
    rw [stack_step_binary hstack]
    exact values_binary h hw
  | checkBounds =>
    obtain ⟨m,st,rfl⟩ := List.exists_cons_of_length_pos (hi.enough (by simp))
    obtain ⟨e,es,hstack⟩ := List.exists_cons_of_length_eq_add_one hes
    simp only [Scan.step,Scan.effect,Instr.pushes,Instr.pops,hstack]
    exact .stop (.inr rfl) (Nat.succ.inj hvs)
  | loadElement | dup => exact values_unknown rfl hvs
  | store | pop | storeElement | alloc => exact values_empty hlength hvs (hi.after rfl)
  | label | passed => cases hb

end values

/-- What is known where control stands. Labels are where paths meet: there only the number of values
is. -/
structure Informed (o : Operations) (code : Code) (c : Config) (s : Store) : Prop where
  values : ∃ ms, code.Visits c.pc ms ∧ c.stack.length = ms.length ∧
    ((∀ l, code[c.pc]? ≠ some (.label l)) → Values o c.slots s (scanAt code c.pc).stack ms c.stack)
  available : (∀ l, code[c.pc]? ≠ some (.label l)) →
    ∀ k f, (k,f) ∈ (scanAt code c.pc).available → ∃ v, k.eval o c.slots s = some v

section informed

variable {o : Operations} {code : Code} {c d : Config} {s t : Store} {i : Instr}

theorem not_label_of_isBoundary {n : Nat} (hi : code[n]? = some i) (hb : i.isBoundary = false)
    (l : Label) : code[n]? ≠ some (.label l) := by
  intro hl
  obtain rfl := Option.some.inj (hi.symm.trans hl)
  cases hb

theorem informed_start (hpc : c.pc = 0) (hstack : c.stack = []) : Informed o code c s := by
  refine ⟨⟨[],?_,by simp [hstack],fun _ => ?_⟩,fun _ k f h => ?_⟩
  · rw [hpc]
    exact .entry
  · rw [hpc,hstack]
    exact .nil
  · rw [hpc] at h
    cases h

/-- A jump goes to a label, where nothing but the height of the stack is claimed. -/
theorem Informed.jump (h : Informed o code c s) (hi : code[c.pc]? = some i) {l : Label} {n : Nat}
    {stack : List Value} (hleaves : (Effect.jump l stack).Leaves i c.stack.length)
    (hn : target? l code = some n) (slots : Slot → Value) (t : Store) :
    Informed o code ⟨n,stack,slots⟩ t := by
  obtain ⟨ms,hvisits,hlen,_⟩ := h.values
  obtain ⟨hstack,hl⟩ := hleaves
  rw [hlen,← Instr.length_remark] at hstack
  have hlabel := getElem?_of_target? hn
  exact ⟨⟨_,.jump hvisits hi hl hn,hstack,fun hnot => absurd hlabel (hnot l)⟩,
    fun hnot => absurd hlabel (hnot l)⟩

section go

variable {stack : List Value} {assigned : Option (Slot × Value)}

/-- The values on the stack after an instruction, even if a label follows. -/
theorem Informed.values_next (h : Informed o code c s) (hcode : code.Shaped)
    (hi : code[c.pc]? = some i) (hgo : exec o c.slots s c.stack i = .go stack assigned t) :
    ∃ ms, code.Visits (c.pc + 1) (i.remark ms) ∧ stack.length = (i.remark ms).length ∧
      Values o (assign c.slots assigned) t (scanAt code (c.pc + 1)).stack (i.remark ms) stack := by
  obtain ⟨ms,hvisits,hlen,hvalues⟩ := h.values
  have hshaped := hcode c.pc ms i hvisits hi
  have hflow : i.endsFlow = false := by
    have hfits := exec_fits o c.slots s c.stack i
    rw [hgo] at hfits
    exact hfits.2
  have hstack : stack.length = (i.remark ms).length := by
    have hleaves := exec_leaves o c.slots s c.stack i
    rw [hgo,hlen,Effect.Leaves,← Instr.length_remark] at hleaves
    exact hleaves
  refine ⟨ms,hvisits.next hi hflow,hstack,?_⟩
  cases hb : i.isBoundary with
  | true =>
    have hempty := hshaped.remark_of_boundary hb hflow
    refine values_empty ?_ hstack hempty
    rw [scanAt_succ hi,stack_step_boundary hb,hempty]
    rfl
  | false =>
    have hnot := not_label_of_isBoundary hi hb
    rw [scanAt_succ hi]
    exact (hvalues hnot).step (traced_scanAt (hcode.block hvisits hnot)).1 hb hshaped hgo

/-- The value that an instruction made available is on top of the stack. -/
theorem Informed.eval_top (h : Informed o code c s) (hcode : code.Shaped)
    (hi : code[c.pc]? = some i) (hgo : exec o c.slots s c.stack i = .go stack assigned t)
    {k : ValueKey} (hmem : (k,c.pc) ∈ (scanAt code (c.pc + 1)).available) :
    ∃ w rest, stack = w :: rest ∧ k.eval o (assign c.slots assigned) t = some w := by
  obtain ⟨ms,_,hstack,hvalues⟩ := h.values_next hcode hi hgo
  simp only [scanAt_succ hi] at hmem hvalues
  rcases available_step hmem with ⟨hold,_⟩ | ⟨_,⟨op,b,rfl⟩,start,htop⟩
  · have hlt := (List.getElem?_eq_some_iff.mp hi).1
    exact absurd (available_scanAt (Nat.le_of_lt hlt) hold).1 (Nat.lt_irrefl c.pc)
  · obtain ⟨es,hes⟩ := List.head?_eq_some_iff.mp htop
    obtain ⟨w,rest,rfl⟩ := List.exists_cons_of_length_eq_add_one hstack
    rw [hes] at hvalues
    exact ⟨w,rest,rfl,(hvalues.top rfl).1⟩

theorem Informed.go (h : Informed o code c s) (hcode : code.Shaped) (hi : code[c.pc]? = some i)
    (hgo : exec o c.slots s c.stack i = .go stack assigned t) :
    Informed o code ⟨c.pc + 1,stack,assign c.slots assigned⟩ t := by
  obtain ⟨ms,hvisits,hstack,hvalues⟩ := h.values_next hcode hi hgo
  refine ⟨⟨i.remark ms,hvisits,hstack,fun _ => hvalues⟩,fun _ k f hmem => ?_⟩
  by_cases hf : f = c.pc
  · subst hf
    obtain ⟨w,_,_,hw⟩ := h.eval_top hcode hi hgo hmem
    exact ⟨w,hw⟩
  · simp only [scanAt_succ hi] at hmem
    rcases available_step hmem with ⟨hold,hspares⟩ | ⟨he,_⟩
    · obtain ⟨v,hv⟩ := h.available (not_label_of_isBoundary hi hspares.boundary) k f hold
      exact ⟨v,(eval_of_go hspares hgo).trans hv⟩
    · exact absurd he hf

end go

theorem Informed.step (h : Informed o code c s) (hcode : code.Shaped)
    (hstep : step o code c s = .next d t) : Informed o code d t := by
  obtain ⟨i,hi,⟨stack,assigned,he,rfl⟩ | ⟨l,stack,n,he,hn,rfl,rfl⟩⟩ := step_eq_next hstep
  · exact h.go hcode hi he
  · have hleaves := exec_leaves o c.slots t c.stack i
    rw [he] at hleaves
    exact h.jump hi hleaves hn _ _

theorem Informed.steps {n : Nat} (h : Informed o code c s) (hcode : code.Shaped)
    (hs : Steps o code n c s d t) : Informed o code d t := by
  induction hs with
  | refl => exact h
  | succ hstep _ ih => exact ih (h.step hcode hstep)

/-- After a call there is nothing that could be kept, and its result is unknown. -/
theorem Informed.resume (h : Informed o code c s) (hcode : code.Shaped) {target : CallTarget}
    {args stack : List Value} {returns : Bool} {n : Nat}
    (hi : code[c.pc]? = some (.call target n returns))
    (he : exec o c.slots s c.stack (.call target n returns) = .call target args returns stack)
    {v : Option Value} (hd : Config.resume ⟨c.pc + 1,stack,c.slots⟩ returns v = some d) :
    Informed o code d t := by
  obtain ⟨ms,hvisits,hlen,_⟩ := h.values
  have hnext := hvisits.next hi rfl
  have hblock := hcode.block_next hvisits hi rfl
  obtain ⟨hpc,_,hstack⟩ := Config.resume_eq_some hd
  have hleaves := exec_leaves o c.slots s c.stack (.call target n returns)
  rw [he,hlen,Effect.Leaves,← Instr.length_remark] at hleaves
  have hlength := hstack.trans hleaves
  refine ⟨⟨_,by rw [hpc]; exact hnext,hlength,fun _ => ?_⟩,fun _ k f hmem => ?_⟩
  · rw [hpc]
    cases returns with
    | true =>
      rw [scanAt_succ hi]
      exact values_unknown rfl hlength
    | false =>
      exact values_empty (traced_scanAt hblock).1 hlength ((hcode _ _ _ hvisits hi).after rfl)
  · rw [hpc,scanAt_succ hi] at hmem
    cases hmem

end informed

end StackCompiler.Reuse
