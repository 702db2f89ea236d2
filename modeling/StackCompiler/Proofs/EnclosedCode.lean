import StackCompiler.Proofs.BranchTargets
import StackCompiler.Proofs.StatementRuns

/-! Code that control leaves at its end only.
Without labels and jumps among them, the branches of statements stay in their own code. What this code
writes are variables and the slots that it takes for itself, so a run through it leaves alone what a
loop around it keeps in slots without names. -/
namespace StackCompiler

namespace Code

def writes (code : Code) : List Slot := code.filterMap Instr.defined?

@[simp] theorem writes_nil : writes [] = [] := rfl

@[simp] theorem writes_append (a b : Code) : (a ++ b).writes = a.writes ++ b.writes :=
  List.filterMap_append

@[simp] theorem writes_cons (i : Instr) (code : Code) :
    writes (i :: code) = i.defined?.toList ++ code.writes := by
  cases h : i.defined? <;> simp [writes,h]

theorem length_le_of_marks {code : Code} {st st' : List Mark} (h : code.marks st = some st') :
    st'.length ≤ st.length + code.length := by
  induction code generalizing st with
  | nil =>
    cases h
    exact Nat.le_refl _
  | cons i rest ih =>
    obtain ⟨st₁,hi,hrest⟩ := Option.bind_eq_some_iff.mp h
    have hle := ih hrest
    have hlen := Instr.length_of_mark hi
    have hpushes : i.pushes ≤ 1 := by
      cases i with
      | dup =>
        rw [Instr.mark_dup] at hi
        cases hi
      | call _ _ returns => exact Bool.toNat_le returns
      | _ => simp [Instr.pushes]
    rw [Instr.height] at hlen
    rw [List.length_cons]
    omega

/-- Code that leaves whatever stack it finds writes nothing: before a value is written the stack has
to hold what is written and no more. -/
theorem writes_of_marks {code : Code}
    (h : ∀ st, ∃ st', code.marks st = some st' ∧ st.length ≤ st'.length) : code.writes = [] := by
  refine List.filterMap_eq_nil_iff.mpr fun i hi => ?_
  by_contra hdefined
  have hempty : i.leavesEmpty = true := by
    cases i with
    | store | alloc => rfl
    | _ => exact absurd rfl hdefined
  obtain ⟨a,b,rfl⟩ := List.append_of_mem hi
  obtain ⟨st',hst',hle⟩ := h (List.replicate (b.length + 1) .plain)
  rw [marks_append] at hst'
  obtain ⟨st₁,_,hrest⟩ := Option.bind_eq_some_iff.mp hst'
  obtain ⟨st₂,hmark,hb⟩ := Option.bind_eq_some_iff.mp hrest
  have hnil : st₂ = [] :=
    (Instr.remark_of_mark hmark).symm.trans ((Instr.shaped_of_mark hmark).after hempty)
  have hlen := length_le_of_marks hb
  rw [hnil,List.length_nil] at hlen
  rw [List.length_replicate] at hle
  omega

theorem Pushes.writes {code : Code} (h : code.Pushes) : code.writes = [] :=
  writes_of_marks fun st => ⟨_,h.marks st,Nat.le_succ _⟩

theorem PushesAll.writes {code : Code} {n : Nat} (h : code.PushesAll n) : code.writes = [] := by
  refine writes_of_marks fun st => ?_
  obtain ⟨ms,_,hms⟩ := h.marks st
  exact ⟨_,hms,by simp⟩

@[simp] theorem writes_coercion (c : Coercion) : c.code.writes = [] := by
  cases c <;> rfl

end Code

theorem Frame.Grows.nameless {f g : Frame} {n : Slot} (h : f.Grows g) (hn : g.Nameless n) :
    f.Nameless n :=
  fun key hkey => hn key (h.names key n hkey)

namespace Lowering

open Lower Code

/-- The branches of the code go to labels of its own. A slot that it writes belongs to a variable of
the later frame or comes after the earlier one. -/
structure Enclosed (f g : Frame) (code : Code) : Prop where
  targets : ∀ l ∈ code.targets, l ∈ code.labels
  writes : ∀ n ∈ code.writes, g.Nameless n → f.length ≤ n

section enclosed

variable {f f' g g' : Frame} {code : Code}

theorem Enclosed.mono (h : Enclosed f g code) (hf : f'.Grows f) (hg : g.Grows g') :
    Enclosed f' g' code :=
  ⟨h.targets,fun n hn hname => Nat.le_trans hf.length_le (h.writes n hn (hg.nameless hname))⟩

theorem Enclosed.append {a b : Code} (ha : Enclosed f g a) (hb : Enclosed f g b) :
    Enclosed f g (a ++ b) := by
  refine ⟨fun l hl => ?_,fun n hn => ?_⟩
  · rw [targets_append] at hl
    rw [labels_append]
    rcases List.mem_append.mp hl with hl | hl
    · exact List.mem_append_left _ (ha.targets l hl)
    · exact List.mem_append_right _ (hb.targets l hl)
  · rw [writes_append] at hn
    rcases List.mem_append.mp hn with hn | hn
    · exact ha.writes n hn
    · exact hb.writes n hn

theorem enclosed_of_plain (h : code.Plain) (hw : ∀ n ∈ code.writes, g.Nameless n → f.length ≤ n) :
    Enclosed f g code := by
  refine ⟨fun l hl => ?_,hw⟩
  rw [h.targets] at hl
  cases hl

theorem enclosed_of_nil (h : code.Plain) (hw : code.writes = []) : Enclosed f g code := by
  refine enclosed_of_plain h fun n hn => ?_
  rw [hw] at hn
  cases hn

end enclosed

section simple

variable {r : Routine} {s s' : State} {line : Line} {name : String} {code : Code}

theorem not_nameless_localVar (f : Frame) (name : String) (type : Ty) :
    ¬ (f.localVar name type).2.Nameless (f.localVar name type).1 :=
  fun h => h name (Frame.slot?_localVar f name type)

theorem not_nameless_place {found : Symbol × Nat} {p : Place} {n : Slot}
    (h : (place r found line).Gives s p s') (hn : p.slot? = some n) : ¬ s'.frame.Nameless n := by
  rcases gives_place.mp h with ⟨_,rfl,_⟩ | ⟨_,_,rfl,rfl⟩
  · cases hn
  · obtain rfl := Option.some.inj hn
    exact not_nameless_localVar _ _ _

theorem writes_allocate {d : Declaration} {array : Place}
    (h : (allocate r d array).Gives s code s') : code.writes = array.slot?.toList := by
  obtain ⟨sizes,hs,rfl⟩ := gives_allocate.mp h
  simp [(pushesAll_extents d.dimensions hs).writes,Instr.defined?]

theorem enclosed_declaration {d : Declaration} (h : (declaration r d).Gives s code s') :
    Enclosed s.frame s'.frame code := by
  refine enclosed_of_plain (plain_declaration h) fun n hn hname => ?_
  cases declaration_cases h with
  | global _ h =>
    rcases gives_allocateGlobal.mp h with ⟨_,h⟩ | ⟨_,rfl,_⟩
    · rw [writes_allocate h] at hn
      cases hn
    · cases hn
  | plain => cases hn
  | array _ _ _ h =>
    rw [writes_allocate h] at hn
    obtain rfl := List.mem_singleton.mp hn
    have hgrows := (changes_of_gives h stays_allocate).frame
    exact absurd (hgrows.nameless hname) (not_nameless_localVar _ _ _)

theorem enclosed_assign {target : Target} {value : Expr}
    (h : (assign r target value line).Gives s code s') : Enclosed s.frame s'.frame code := by
  refine enclosed_of_plain (plain_assign h) fun n hn hname => ?_
  cases assign_cases h with
  | result _ _ _ _ hx =>
    obtain rfl : n = _ := by
      simpa [(pushes_expr r value hx).writes,Instr.defined?,Place.slot?] using hn
    exact absurd hname (not_nameless_localVar _ _ _)
  | stored _ _ _ hp hx =>
    have hgrows := (changes_of_gives hx (stays_expr r value _)).frame
    refine absurd (hgrows.nameless hname) (not_nameless_place hp ?_)
    simpa [(pushes_expr r value hx).writes,Instr.defined?] using hn
  | element _ _ _ hp hs hx =>
    have hlen := (gives_arrayPlace.mp hp).2.2.1
    simp [(pushesAll_subscripts r _ hs hlen).writes,(pushes_expr r value hx).writes,
      Instr.defined?] at hn

theorem writes_callStmt {args : List Expr} (h : (callStmt r name args line).Gives s code s') :
    code.writes = [] := by
  obtain ⟨p,hp,rfl⟩ := gives_callStmt.mp h
  obtain ⟨target,signature,t,values,coercions,hc⟩ := call_cases hp
  have hargs := (hc.pushesAll (pushes_exprs r args hc.args)).writes
  rw [hc.type,hc.code]
  cases signature.type.isVoid <;> simp [hargs,Instr.defined?]

theorem writes_ret {value : Option Expr} (h : (ret r value line).Gives s code s') :
    code.writes = [] := by
  cases ret_cases h with
  | nothing => rfl
  | result => rfl
  | value _ hx => simp [(pushes_expr r _ hx).writes,Instr.defined?]

theorem writes_printAll : ∀ (values : List Expr) {s : State} {code : Code} {s' : State},
    (printAll r line values).Gives s code s' → code.writes = []
  | [], _, _, _, h => by
    rw [printAll] at h
    rw [(gives_pure.mp h).1]
    rfl
  | e :: rest, _, _, _, h => by
    obtain ⟨x,t,printer,more,hx,_,hm,rfl⟩ := gives_printAll_cons.mp h
    simp [(pushes_expr r e hx).writes,writes_printAll rest hm,Instr.defined?]

theorem writes_shareAll : ∀ (names : List String) {s : State} {code : Code} {s' : State},
    (shareAll line names).Gives s code s' → code.writes = []
  | [], _, _, _, h => by
    rw [shareAll] at h
    rw [(gives_pure.mp h).1]
    rfl
  | _ :: rest, _, _, _, h => by
    obtain ⟨symbol,scopes,_,hr⟩ := gives_shareAll_cons.mp h
    exact writes_shareAll rest hr

end simple

section loops

variable {r : Routine} {s s' : State} {line : Line} {name : String} {head : ForHead}

theorem StepCase.le_of_dynamic {type : Ty} {step : Option Expr} {p : Code × Step}
    (h : StepCase r type s step p s') : ∀ n, p.2 = .dynamic n → s.frame.length ≤ n := by
  intro n hn
  cases h with
  | one => cases hn
  | constant => cases hn
  | dynamic _ hx =>
    cases hn
    exact (changes_of_gives hx (stays_expr r _ _)).frame.length_le

theorem StepCase.dynamic_of_writes {type : Ty} {step : Option Expr} {p : Code × Step}
    (h : StepCase r type s step p s') : ∀ n ∈ p.1.writes, p.2 = .dynamic n := by
  intro n hn
  cases h with
  | one => cases hn
  | constant => cases hn
  | dynamic _ hx =>
    obtain rfl : n = _ := by
      simpa [(pushes_expr r _ hx).writes,Instr.defined?,Place.slot?] using hn
    rfl

theorem writes_load (step : Step) : step.load.writes = [] := by
  cases step <;> rfl

theorem writes_loop (head : ForHead) (again test : Label) (body : Code) :
    (head.loop again test body).writes =
      head.code.writes ++ body.writes ++ head.counter.slot?.toList := by
  simp [ForHead.loop,writes_load,(pushes_test head.counter head.limit head.base head.step).writes,
    Instr.defined?]

/-- The counter is a variable; the slots of limit and step are new. -/
theorem writes_forHead {first last : Expr} {step : Option Expr}
    (h : (forHead r name first last step line).Gives s head s') :
    ∀ n ∈ head.code.writes ++ head.counter.slot?.toList, s'.frame.Nameless n →
      s.frame.length ≤ n := by
  obtain ⟨found,x,y,cx,cy,stepCode,t,u,v,hc⟩ := forHead_cases h
  obtain ⟨hst,htu,huv,hvs⟩ := hc.frames
  have hsv := (hst.trans (htu.trans huv)).length_le
  have htemp := Frame.length_lt_temp v.frame found.1.type
  have htv := (huv.trans (Frame.grows_temp _ _)).trans hvs
  intro n hn hname
  have hcode : head.code.writes = head.counter.slot?.toList ++ head.limit :: stepCode.writes := by
    have hlimit : (Place.slot head.limit).slot?.toList = [head.limit] := rfl
    rw [hc.code]
    simp [(pushes_expr r first hc.firstValue).writes,(pushes_expr r last hc.lastValue).writes,
      Instr.defined?,hlimit]
  have hmem : n = head.limit ∨ n ∈ stepCode.writes ∨ head.counter.slot? = some n := by
    rw [hcode] at hn
    simp only [List.mem_append,List.mem_cons,Option.mem_toList] at hn
    tauto
  rcases hmem with rfl | hstep | hcounter
  · rw [hc.limit]
    exact hsv
  · have hle := hc.stepValue.le_of_dynamic n (hc.stepValue.dynamic_of_writes n hstep)
    exact Nat.le_trans (Nat.le_trans hsv (Nat.le_of_lt htemp)) hle
  · exact absurd ((htu.trans htv).nameless hname) (not_nameless_place hc.counter hcounter)

end loops

mutual

theorem enclosed_stmt (r : Routine) : ∀ (x : Stmt) {s : State} {code : Code} {s' : State},
    (stmt r x).Gives s code s' → (∀ y ∈ x.flatten, y.isJump = false) →
      Enclosed s.frame s'.frame code
  | .declare _ _, _, _, _, h, _ => enclosed_declaration (by rwa [stmt] at h)
  | .share _ names, _, _, _, h, _ => by
    rw [stmt] at h
    exact enclosed_of_nil (plain_shareAll names h) (writes_shareAll names h)
  | .assign .., _, _, _, h, _ => enclosed_assign (by rwa [stmt] at h)
  | .call .., _, _, _, h, _ => by
    rw [stmt] at h
    exact enclosed_of_nil (plain_callStmt h) (writes_callStmt h)
  | .ifElse _ _ yes no, _, _, _, h, hjump => by
    obtain ⟨test,t,yesCode,u,noCode,ht,hyes,hno,rfl⟩ := gives_ifElse.mp h
    have hst := (changes_of_gives ht stays_condition).frame
    have htu := (changes_of_gives hyes (stays_stmts r yes _)).frame
    have hus := (changes_of_gives hno (stays_stmts r no u)).frame
    rw [Stmt.flatten] at hjump
    obtain ⟨hyesTargets,hyesWrites⟩ := (enclosed_stmts r yes hyes fun y hy =>
      hjump y (List.mem_cons_of_mem _ (List.mem_append_left _ hy))).mono hst hus
    obtain ⟨hnoTargets,hnoWrites⟩ := (enclosed_stmts r no hno fun y hy =>
      hjump y (List.mem_cons_of_mem _ (List.mem_append_right _ hy))).mono (hst.trans htu) (.refl _)
    have hpushes := pushes_condition ht
    constructor
    · intro l hl
      cases hn : no.isEmpty <;>
        simp [hn,hpushes.straight.plain.targets,hpushes.straight.plain.labels,Instr.target?,
          Instr.label?] at hl ⊢ <;>
        grind
    · intro n hn
      cases he : no.isEmpty <;> simp [he,hpushes.writes,Instr.defined?] at hn <;> grind
  | .whileDo _ _ body, _, _, _, h, hjump => by
    obtain ⟨bodyCode,t,test,hbody,ht,rfl⟩ := gives_whileDo.mp h
    have hts := (changes_of_gives ht stays_condition).frame
    rw [Stmt.flatten] at hjump
    obtain ⟨htargets,hwrites⟩ := (enclosed_stmts r body hbody fun y hy =>
      hjump y (List.mem_cons_of_mem _ hy)).mono (.refl _) hts
    have hpushes := pushes_condition ht
    constructor
    · intro l hl
      simp [hpushes.straight.plain.targets,hpushes.straight.plain.labels,Instr.target?,
        Instr.label?] at hl ⊢
      grind
    · intro n hn
      simp [hpushes.writes,Instr.defined?] at hn
      exact hwrites n hn
  | .repeatUntil _ body _, _, _, _, h, hjump => by
    obtain ⟨bodyCode,t,test,hbody,ht,rfl⟩ := gives_repeatUntil.mp h
    have hts := (changes_of_gives ht stays_condition).frame
    rw [Stmt.flatten] at hjump
    obtain ⟨htargets,hwrites⟩ := (enclosed_stmts r body hbody fun y hy =>
      hjump y (List.mem_cons_of_mem _ hy)).mono (.refl _) hts
    have hpushes := pushes_condition ht
    constructor
    · intro l hl
      simp [hpushes.straight.plain.targets,hpushes.straight.plain.labels,Instr.target?,
        Instr.label?] at hl ⊢
      grind
    · intro n hn
      simp [hpushes.writes,Instr.defined?] at hn
      exact hwrites n hn
  | .forTo _ _ _ _ _ body, _, _, _, h, hjump => by
    obtain ⟨head,t,bodyCode,hh,hbody,rfl⟩ := gives_forTo.mp h
    have hst := (changes_of_gives hh stays_forHead).frame
    have hts := (changes_of_gives hbody (stays_stmts r body _)).frame
    rw [Stmt.flatten] at hjump
    obtain ⟨htargets,hwrites⟩ := (enclosed_stmts r body hbody fun y hy =>
      hjump y (List.mem_cons_of_mem _ hy)).mono hst (.refl _)
    have hhead := writes_forHead hh
    constructor
    · intro l hl
      rw [targets_loop head _ _ _ (plain_forHead hh)] at hl
      rw [labels_loop head _ _ _ (plain_forHead hh)]
      simp at hl ⊢
      grind
    · intro n hn hname
      have hname' := hts.nameless hname
      simp only [writes_loop,List.mem_append] at hn hhead
      rcases hn with (hn | hn) | hn
      · exact hhead n (.inl hn) hname'
      · exact hwrites n hn hname
      · exact hhead n (.inr hn) hname'
  | .label .., _, _, _, _, hjump => by
    cases hjump _ (List.mem_singleton_self _)
  | .goto .., _, _, _, _, hjump => by
    cases hjump _ (List.mem_singleton_self _)
  | .ret .., _, _, _, h, _ => by
    rw [stmt] at h
    exact enclosed_of_nil (plain_ret h) (writes_ret h)
  | .print _ values, _, _, _, h, _ => by
    rw [stmt] at h
    exact enclosed_of_nil (plain_printAll values h) (writes_printAll values h)
  | .stop _, _, _, _, h, _ => by
    rw [stmt] at h
    rw [(gives_pure.mp h).1]
    exact enclosed_of_nil (by simp [Instr.label?,Instr.target?]) rfl

/-- Control stays in the code of statements without labels and jumps, and the slots that an enclosing
loop has taken are not written. -/
theorem enclosed_stmts (r : Routine) : ∀ (xs : List Stmt) {s : State} {code : Code} {s' : State},
    (stmts r xs).Gives s code s' → Stmt.Structured xs → Enclosed s.frame s'.frame code
  | [], _, _, _, h, _ => by
    rw [stmts] at h
    rw [(gives_pure.mp h).1]
    exact enclosed_of_nil plain_nil rfl
  | x :: rest, s, _, _, h, hjump => by
    obtain ⟨first,t,more,hx,hm,rfl⟩ := gives_stmts_cons.mp h
    have hst := (changes_of_gives hx (stays_recover (stays_stmt r x s))).frame
    have hts := (changes_of_gives hm (stays_stmts r rest t)).frame
    rw [Stmt.Structured,Stmt.flattenAll] at hjump
    have hrest := enclosed_stmts r rest hm fun y hy => hjump y (List.mem_append_right _ hy)
    refine Enclosed.append ?_ (hrest.mono hst (.refl _))
    rcases gives_recover.mp hx with hx | ⟨_,_,_,_,rfl,_⟩
    · exact (enclosed_stmt r x hx fun y hy => hjump y (List.mem_append_left _ hy)).mono (.refl _) hts
    · exact enclosed_of_nil plain_nil rfl

end

end Lowering
namespace Machine

/-- The moments of a run up to the last one, each at a position from `low` on and before `high`. -/
inductive Trace (h : Host) (code : Code) (low high : Nat) : List Moment → Moment → Moment → Prop
  | refl (m : Moment) : Trace h code low high [] m m
  | cons {m m' m'' : Moment} {ms : List Moment} (hlow : low ≤ m.config.pc)
    (hhigh : m.config.pc < high) (hstep : m.step h code = .running m')
    (hrest : Trace h code low high ms m' m'') : Trace h code low high (m :: ms) m m''

def visits (pc : Nat) (ms : List Moment) : List Moment := ms.filter fun m => m.config.pc = pc

section traces

variable {h : Host} {code part : Code} {low low' high high' pc k : Nat} {m m' m'' : Moment}
  {ms ms' : List Moment}

theorem Trace.trans (h₁ : Trace h code low high ms m m') (h₂ : Trace h code low high ms' m' m'') :
    Trace h code low high (ms ++ ms') m m'' := by
  induction h₁ with
  | refl => exact h₂
  | cons hlow hhigh hstep _ ih => exact .cons hlow hhigh hstep (ih h₂)

theorem Trace.mono (ht : Trace h code low high ms m m') (hlow : low' ≤ low) (hhigh : high ≤ high') :
    Trace h code low' high' ms m m' := by
  induction ht with
  | refl => exact .refl _
  | cons hl hh hstep _ ih =>
    exact .cons (Nat.le_trans hlow hl) (Nat.lt_of_lt_of_le hh hhigh) hstep ih

theorem Goes.trace_one (hgoes : Goes h code high 1 m m') (hlow : low ≤ m.config.pc) :
    Trace h code low high [m] m m' := by
  cases hgoes with
  | succ hhigh hstep hrest =>
    cases hrest
    exact .cons hlow hhigh hstep (.refl _)

@[simp] theorem visits_append (pc : Nat) (ms ms' : List Moment) :
    visits pc (ms ++ ms') = visits pc ms ++ visits pc ms' :=
  List.filter_append ms ms'

theorem visits_cons (h : m.config.pc = pc) (ms : List Moment) :
    visits pc (m :: ms) = m :: visits pc ms :=
  List.filter_cons_of_pos (by simpa using h)

theorem Trace.visits_eq_nil (ht : Trace h code low high ms m m') (hpc : pc < low) :
    visits pc ms = [] := by
  induction ht with
  | refl => rfl
  | cons hlow _ _ _ ih =>
    rw [visits,List.filter_cons_of_neg (by simpa using (Nat.ne_of_lt (Nat.lt_of_lt_of_le hpc hlow)).symm)]
    exact ih

/-- One step inside a stretch of code whose branches go to labels of its own. -/
theorem step_inside (hlabels : code.labels.Nodup) (hpart : code.Has low part)
    (htargets : ∀ l ∈ part.targets, l ∈ part.labels) (hlow : low ≤ m.config.pc)
    (hhigh : m.config.pc < low + part.length) (hstep : m.step h code = .running m') :
    low ≤ m'.config.pc ∧ ∀ n ∉ part.writes, m'.config.slots n = m.config.slots n := by
  cases hi : code[m.config.pc]? with
  | none =>
    rw [Moment.step,step,hi] at hstep
    cases hstep
  | some i =>
    have hmem : i ∈ part := hpart.mem hlow hhigh hi
    rw [Moment.step,step_of_getElem? hi] at hstep
    have hfits := exec_fits h.operations m.config.slots m.store m.config.stack i
    cases hexec : exec h.operations m.config.slots m.store m.config.stack i with
    | go stack assigned t =>
      rw [hexec] at hfits hstep
      cases hstep
      refine ⟨Nat.le_succ_of_le hlow,fun n hn => ?_⟩
      cases assigned with
      | none => rfl
      | some p =>
        have hdefined : i.defined? = some p.1 := hfits.1.symm
        have hne : n ≠ p.1 := fun he => hn (List.mem_filterMap.mpr ⟨i,hmem,he ▸ hdefined⟩)
        exact Function.update_of_ne hne _ _
    | jump l stack =>
      rw [hexec] at hfits hstep
      have htarget : l ∈ part.targets := List.mem_filterMap.mpr ⟨i,hmem,hfits⟩
      obtain ⟨j,hj,hlabel⟩ := List.mem_filterMap.mp (htargets l htarget)
      obtain rfl : j = .label l := by
        cases j with
        | label l' => exact congrArg Instr.label (Option.some.inj hlabel)
        | _ => cases hlabel
      obtain ⟨n,hn⟩ := List.getElem?_of_mem hj
      have hlt := (List.getElem?_eq_some_iff.mp hn).1
      have hget : code[low + n]? = some (.label l) := by
        obtain ⟨rest,hrest⟩ := hpart
        rw [← List.getElem?_drop,← hrest,List.getElem?_append_left hlt]
        exact hn
      rw [follow,target?_of_nodup hlabels hget] at hstep
      cases hstep
      exact ⟨Nat.le_add_right _ _,fun _ _ => rfl⟩
    | call target args returns stack =>
      rw [hexec] at hstep
      simp only [follow,Moment.perform] at hstep
      split at hstep
      · cases hstep
      · split at hstep
        · next d hd =>
          cases hstep
          obtain ⟨hpc,hslots,_⟩ := Config.resume_eq_some hd
          exact ⟨hpc ▸ Nat.le_succ_of_le hlow,fun n _ => congrFun hslots n⟩
        · cases hstep
    | ret | trap | underflow =>
      rw [hexec] at hstep
      cases hstep

/-- A run from inside such a stretch stays there up to its end. -/
theorem Goes.trace (hlabels : code.labels.Nodup) (hpart : code.Has low part)
    (htargets : ∀ l ∈ part.targets, l ∈ part.labels)
    (hgoes : Goes h code (low + part.length) k m m') (hlow : low ≤ m.config.pc) :
    (∃ ms, Trace h code low (low + part.length) ms m m') ∧
      ∀ n ∉ part.writes, m'.config.slots n = m.config.slots n := by
  induction hgoes with
  | refl => exact ⟨⟨[],.refl _⟩,fun _ _ => rfl⟩
  | succ hhigh hstep _ ih =>
    obtain ⟨hlow',hslots⟩ := step_inside hlabels hpart htargets hlow hhigh hstep
    obtain ⟨⟨ms,hms⟩,hrest⟩ := ih hlow'
    exact ⟨⟨_,.cons hlow hhigh hstep hms⟩,fun n hn => (hrest n hn).trans (hslots n hn)⟩

end traces

end Machine
end StackCompiler
