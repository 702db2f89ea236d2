import StackCompiler.Proofs.EnclosedCode
import StackCompiler.Proofs.ExactFolding
import StackCompiler.Proofs.OperandTypes

/-! What a counting loop over integers counts through.
Before its first round the code stores the first value in the counter, the limit in a slot without a
name, and there also a step that is not a constant. From then on control stays between the branch to
the test and the end of the loop, so that none of the three is computed again. The test before a round
asks whether the counter has passed the limit, in the direction that the sign of the step gives. -/
namespace StackCompiler

/-- The value has not passed the limit, which lies below it if the step is negative. -/
def KeepsTo (x limit step : Int) : Prop := if 0 ≤ step then x ≤ limit else limit ≤ x

instance (x limit step : Int) : Decidable (KeepsTo x limit step) :=
  inferInstanceAs (Decidable (if 0 ≤ step then x ≤ limit else limit ≤ x))

namespace Machine

def Value.whole (n : Int) : Value := .scalar (.integer (Int64.ofInt n))

def Value.progression (first step : Int) (n : Nat) : List Value :=
  (List.range n).map fun k : Nat => whole (first + k * step)

theorem Value.progression_succ (first step : Int) (n : Nat) :
    progression first step (n + 1) = progression first step n ++ [whole (first + n * step)] := by
  simp only [progression,List.range_succ,List.map_append,List.map_cons,List.map_nil]

theorem Value.whole_toInt (n : Int64) : whole n.toInt = .scalar (.integer n) := by
  rw [whole,Int64.ofInt_toInt]

namespace Operations.Lawful

variable {o : Operations} {x y : Int}

theorem boolean (ho : o.Lawful) {op : BinaryOp} {a b : Bool} {v : Literal}
    (h : Folding.boolean? op a b = some v) :
    o.binary op .boolean (.scalar (.boolean a)) (.scalar (.boolean b)) = some (.scalar v) :=
  ho.binary (by rwa [Folding.binary?,if_pos rfl])

variable (hx : InRange x) (hy : InRange y)

include hx hy

theorem integer (ho : o.Lawful) {op : BinaryOp} {v : Literal} (hc : Folding.Certain op x y)
    (hv : Folding.Exact op x y v) :
    o.binary op .integer (.whole x) (.whole y) = some (.scalar v) := by
  have hfold : Folding.integer? op (Int64.ofInt x) (Int64.ofInt y) = some v := by
    rw [Folding.integer?_eq_some_iff,hx.toInt_ofInt,hy.toInt_ofInt]
    exact ⟨hc,hv⟩
  exact ho.binary (by rwa [Folding.binary?,if_pos rfl])

theorem add (ho : o.Lawful) (h : InRange (x + y)) :
    o.binary .add .integer (.whole x) (.whole y) = some (.whole (x + y)) :=
  ho.integer hx hy h ⟨_,rfl,h.toInt_ofInt⟩

theorem lt (ho : o.Lawful) :
    o.binary .lt .integer (.whole x) (.whole y) = some (.scalar (.boolean (x < y))) :=
  ho.integer hx hy trivial rfl

theorem le (ho : o.Lawful) :
    o.binary .le .integer (.whole x) (.whole y) = some (.scalar (.boolean (x ≤ y))) :=
  ho.integer hx hy trivial rfl

theorem ge (ho : o.Lawful) :
    o.binary .ge .integer (.whole x) (.whole y) = some (.scalar (.boolean (y ≤ x))) :=
  ho.integer hx hy trivial rfl

end Operations.Lawful

end Machine

namespace Evaluation

open Machine

theorem World.read_write (w : World) (v : Value) (x : Home) : (w.write v x).read x = v := by
  cases x <;> exact Function.update_self ..

/-- The step is the number, as it stands in the program or as a computed value. -/
inductive Stride.Steps (step : Int) : Stride → Prop
  | constant : Steps step (.constant (.integer (Int64.ofInt step)))
  | computed : Steps step (.computed (.whole step))

theorem Stride.Steps.value {step : Int} {stride : Stride} (h : stride.Steps step) :
    stride.value .integer = .whole step := by
  cases h <;> rfl

structure Count.Over (c : Count) (limit step : Int) : Prop where
  base : c.base = .integer
  limit : c.limit = .whole limit
  stride : c.stride.Steps step

section counts

variable {h : Host} {c : Count} {w : World} {x limit step : Int}

theorem keepsTo_done (ho : h.operations.Lawful) {step : Value} {sign bound : BinaryOp}
    {signed bounded : Bool}
    (hsign : h.operations.binary sign c.base step
      (.scalar (zeroOf c.base)) = some (.scalar (.boolean signed)))
    (hbound : h.operations.binary bound c.base (w.read c.counter) c.limit =
      some (.scalar (.boolean bounded))) :
    c.keepsTo h step sign bound w = .done (.scalar (.boolean (signed && bounded))) w := by
  have hand : h.operations.binary .and .boolean (.scalar (.boolean signed))
      (.scalar (.boolean bounded)) = some (.scalar (.boolean (signed && bounded))) := ho.boolean rfl
  simp only [Count.keepsTo,bind,load,hsign,orTrap,pure,hbound,hand]

theorem goesOn_done (ho : h.operations.Lawful) (hc : c.Over limit step) (hx : InRange x)
    (hlimit : InRange limit) (hstep : InRange step) (hw : w.read c.counter = .whole x) :
    c.goesOn h w = .done (.scalar (.boolean (KeepsTo x limit step))) w := by
  have hle := ho.le hx hlimit
  have hge := ho.ge hx hlimit
  obtain ⟨home,base,bound,stride⟩ := c
  obtain ⟨rfl,rfl,hstride⟩ := hc
  cases hstride with
  | constant =>
    have hsign : upwards (.integer (Int64.ofInt step)) = decide (0 ≤ step) := by
      rw [upwards,hstep.toInt_ofInt]
    by_cases hpos : 0 ≤ step
    · simp only [Count.goesOn,bind,load,hw,hsign,hpos,decide_true,if_true,hle,orTrap,pure,KeepsTo]
    · simp only [Count.goesOn,bind,load,hw,hsign,hpos,decide_false,Bool.false_eq_true,if_false,hge,
        orTrap,pure,KeepsTo]
  | computed =>
    have hzero : InRange 0 := by decide
    have hup := keepsTo_done (c := ⟨home,.integer,.whole limit,.computed (.whole step)⟩) (w := w) ho
      (ho.ge hstep hzero) (by rw [hw]; exact hle)
    have hdown := keepsTo_done (c := ⟨home,.integer,.whole limit,.computed (.whole step)⟩) (w := w)
      ho (ho.lt hstep hzero) (by rw [hw]; exact hge)
    have hor (a b : Bool) : h.operations.binary .or .boolean (.scalar (.boolean a))
        (.scalar (.boolean b)) = some (.scalar (.boolean (a || b))) := ho.boolean rfl
    simp only [Count.goesOn,bind,hup,hdown,hor,orTrap,pure]
    congr 3
    by_cases hpos : 0 ≤ step
    · simp [KeepsTo,hpos,Int.not_lt.mpr hpos]
    · simp [KeepsTo,hpos,Int.not_le.mp hpos]

theorem advance_done (ho : h.operations.Lawful) (hc : c.Over limit step) (hx : InRange x)
    (hstep : InRange step) (hsum : InRange (x + step)) (hw : w.read c.counter = .whole x) :
    c.advance h w = .done () (w.write (.whole (x + step)) c.counter) := by
  have hadd := ho.add hx hstep hsum
  simp only [Count.advance,bind,load,hw,hc.base,hc.stride.value,hadd,orTrap,pure,store]

end counts
end Evaluation

theorem Code.Pushes.quiet {code : Code} (h : code.Pushes) : code.targets = [] ∧ code.writes = [] :=
  ⟨h.straight.plain.targets,h.writes⟩

namespace Lowering

open Lower Machine Evaluation

def Step.settle (own : Code) : Step → Code
  | .constant .. => []
  | .dynamic n => own ++ [.store (.slot n)]

section steps

variable {r : Routine} {s s' : State} {type : Ty} {step : Option Expr} {p : Code × Step}

theorem StepCase.sign (h : StepCase r (.scalar .integer) s step p s') {n : Int64} {ascending : Bool}
    (hp : p.2 = .constant (.integer n) ascending) : ascending = upwards (.integer n) := by
  cases h with
  | one =>
    cases hp
    rfl
  | constant =>
    obtain ⟨rfl,rfl⟩ := Step.constant.inj hp
    exact (upwards_eq _).symm
  | dynamic => cases hp

theorem StepCase.quiet (h : StepCase r type s step p s') {n : Slot} {own : Code}
    (hstep : p.2 = .dynamic n) (hp : p.1 = p.2.settle own) : own.targets = [] ∧ own.writes = [] := by
  cases h with
  | one | constant => cases hstep
  | @dynamic e x c t _ hx =>
    obtain rfl : x.code ++ c.code = own := List.append_cancel_right hp
    exact ((pushes_expr r e hx).coerce c).quiet

end steps

/-- A counting loop over integers: its counter, the slot of the limit, the step, and the code of its
parts. A constant step needs no code. -/
structure CountingLoop where
  counter : Place
  limit : Slot
  step : Step
  first : Code
  last : Code
  stepCode : Code
  body : Code
  again : Label
  test : Label

namespace CountingLoop

variable (l : CountingLoop)

def head : ForHead where
  counter := l.counter
  limit := l.limit
  step := l.step
  base := .integer
  code := l.first ++ [.store l.counter] ++ l.last ++ [.store (.slot l.limit)] ++
    l.step.settle l.stepCode

def advance : Code := [.load l.counter] ++ l.step.load ++ [.binary .add .integer,.store l.counter]

def check : Code := l.step.test l.counter l.limit .integer

def code : Code := l.head.loop l.again l.test l.body

/-! Positions in the code of a loop that stands at `pc`: the branch to the test, the label before the
body, the end of the body, the label before the test, and the end of the loop. -/

def entry (pc : Nat) : Nat := pc + l.head.code.length

def top (pc : Nat) : Nat := l.entry pc + 1

def bottom (pc : Nat) : Nat := l.top pc + 1 + l.body.length

def foot (pc : Nat) : Nat := l.bottom pc + l.advance.length

def finish (pc : Nat) : Nat := pc + l.code.length

def value (m : Moment) : Machine.Value := read m.config.slots m.store l.counter

theorem head_code : l.head.code =
    l.first ++ .store l.counter :: (l.last ++ .store (.slot l.limit) ::
      l.step.settle l.stepCode) := by
  simp [head]

theorem code_eq : l.code = l.head.code ++ .branch l.test :: .label l.again :: (l.body ++ (l.advance ++
    (.label l.test :: l.check ++ [.branchIf true l.again]))) := by
  simp [code,ForHead.loop,advance,check,head]

theorem finish_eq (pc : Nat) : l.finish pc = l.foot pc + 1 + l.check.length + 1 := by
  rw [finish,code_eq]
  simp only [List.length_append,List.length_cons,List.length_nil,foot,bottom,top,entry]
  omega

theorem positions (pc : Nat) : l.entry pc < l.top pc ∧ l.top pc < l.bottom pc ∧
    l.bottom pc ≤ l.foot pc ∧ l.foot pc < l.finish pc := by
  rw [finish_eq]
  simp only [foot,bottom,top]
  omega

variable {l}

structure Stands (l : CountingLoop) (code : Code) (pc : Nat) : Prop where
  head : code.Has pc l.head.code
  branch : code[l.entry pc]? = some (.branch l.test)
  again : code[l.top pc]? = some (.label l.again)
  body : code.Has (l.top pc + 1) l.body
  advance : code.Has (l.bottom pc) l.advance
  check : code.Has (l.foot pc) (.label l.test :: l.check)
  back : code[l.foot pc + 1 + l.check.length]? = some (.branchIf true l.again)

/-- Frames before and after the body: the counter is a variable, the slots of limit and step have no
name, and the body keeps to its own slots. -/
structure Guarded (l : CountingLoop) (f g : Frame) (x : Home) : Prop where
  counter : g.Houses x l.counter
  reserves : l.head.Reserves g f.length
  apart : l.step ≠ .dynamic l.limit
  body : Enclosed f g l.body

/-- The loop stands before its test, with the number in the counter. -/
structure Ready (l : CountingLoop) (pc : Nat) (g : Frame) (c : Count) (x : Int) (m : Moment) : Prop where
  pc : m.config.pc = l.foot pc
  carries : l.head.Carries g c m.config.slots
  value : l.value m = .whole x

/-- What a run of the loop rests on: its code and its slots, the operators, and the numbers that it
counts with. -/
structure Counts (l : CountingLoop) (S : Scene) (pc : Nat) (f : Frame) (c : Count) (limit step : Int) :
    Prop where
  stands : l.Stands S.code pc
  guarded : l.Guarded f S.frame c.counter
  lawful : S.host.operations.Lawful
  numbers : c.Over limit step
  fitsLimit : InRange limit
  fitsStep : InRange step

/-- Whenever the run of the loop comes to the body, it comes to the end of the body, with the counter
as it was. -/
def Completes (l : CountingLoop) (h : Host) (code : Code) (pc : Nat) (m : Moment) : Prop :=
  ∀ ms x, Trace h code (l.entry pc) (l.finish pc) ms m x → x.config.pc = l.top pc →
    ∃ k y, Goes h code (l.bottom pc) k x y ∧ y.config.pc = l.bottom pc ∧ l.value y = l.value x

theorem targets_check : Code.targets (.label l.test :: l.check) = [] :=
  (plain_test l.head).targets

theorem targets_advance : l.advance.targets = [] := by
  simp [advance,(plain_load l.step).targets,Instr.target?]

section rounds

variable {S : Scene} {f : Frame} {c : Count} {pc : Nat} {m m₀ : Moment} {ms₀ : List Moment}
  {x limit step : Int}

theorem Guarded.read (hg : l.Guarded f S.frame c.counter) (m : Moment) :
    (m.world S.frame).read c.counter = l.value m :=
  (read_of_houses hg.counter).symm

namespace Counts

theorem check (h : l.Counts S pc f c limit step) (σ : List Machine.Value) :
    S.Serves 0 (l.head.Carries S.frame c) l.check σ (c.goesOn S.host) (fun v => v :: σ) := by
  have htest : S.Serves 0 (l.head.Carries S.frame c) (l.step.test l.counter l.limit c.base) σ
      (c.goesOn S.host) (fun v => v :: σ) :=
    serves_test (fun _ _ hk hc => ForHead.Carries.keeps hc h.guarded.reserves hk) h.guarded.counter
      (by rw [h.numbers.base]; rfl) (fun _ hc => hc.limit) fun _ hc => hc.step
  rwa [h.numbers.base] at htest

theorem advance (h : l.Counts S pc f c limit step) (σ : List Machine.Value) :
    S.Serves 0 (l.head.Carries S.frame c) l.advance σ (c.advance S.host) (fun _ => σ) := by
  have hadvance : S.Serves 0 (l.head.Carries S.frame c)
      ([.load l.counter] ++ l.step.load ++ [.binary .add c.base,.store l.counter]) σ
      (c.advance S.host) (fun _ => σ) :=
    serves_advance (fun _ _ hk hc => ForHead.Carries.keeps hc h.guarded.reserves hk)
      h.guarded.counter fun _ hc => hc.step
  rwa [h.numbers.base] at hadvance

theorem tests (h : l.Counts S pc f c limit step) (hx : InRange x) (hr : l.Ready pc S.frame c x m) :
    ∃ ms m', Trace S.host S.code (l.foot pc) (l.finish pc) ms m m' ∧
      m'.config.pc = (if KeepsTo x limit step then l.top pc else l.finish pc) ∧
      l.head.Carries S.frame c m'.config.slots ∧ l.value m' = .whole x := by
  obtain ⟨hlabel,hcheck⟩ := Code.has_cons.mp h.stands.check
  have hpc := hr.pc
  rw [← hpc] at hlabel hcheck
  have hw := (h.guarded.read m).trans hr.value
  have ha := h.check m.config.stack (m.move (m.config.pc + 1) m.config.stack) hcheck rfl hr.carries
  change S.Arrives _ (m.config.pc + 1 + l.check.length) _ _ (c.goesOn S.host (m.world S.frame)) at ha
  rw [goesOn_done h.lawful h.numbers hx h.fitsLimit h.fitsStep hw] at ha
  obtain ⟨k,m₁,hgoes,hworld,hpc₁,hstack,hcarries⟩ := ha
  replace hpc₁ : m₁.config.pc = m.config.pc + 1 + l.check.length := hpc₁
  have hlength : m.config.pc + 1 + l.check.length =
      l.foot pc + (Instr.label l.test :: l.check).length := by
    rw [hpc,List.length_cons]
    omega
  have hend := l.finish_eq pc
  have hall := (Scene.goes_label (by omega) hlabel).trans hgoes
  rw [hlength] at hall
  obtain ⟨⟨ms,htrace⟩,_⟩ := hall.trace S.labels h.stands.check (by rw [targets_check]; simp)
    (Nat.le_of_eq hpc.symm)
  have hback : S.code[m₁.config.pc]? = some (.branchIf true l.again) := by
    rw [hpc₁,hpc]
    exact h.stands.back
  have hjump : Goes S.host S.code (l.finish pc) 1 m₁ _ :=
    Scene.goes_branchIf (by omega) hback h.stands.again hstack
  refine ⟨_,_,(htrace.mono (Nat.le_refl _) (by omega)).trans (hjump.trace_one (by omega)),?_,
    hcarries,?_⟩
  · by_cases hk : KeepsTo x limit step
    · simp [Moment.move,hk]
    · simp [Moment.move,hk,hpc₁,hend,hpc]
  · rw [← h.guarded.read]
    change (m₁.world S.frame).read c.counter = _
    rw [hworld,hw]

/-- Behind its body the loop takes a step and comes before its test. -/
theorem steps (h : l.Counts S pc f c limit step) (hx : InRange x) (hsum : InRange (x + step))
    (hpc : m.config.pc = l.bottom pc) (hcarries : l.head.Carries S.frame c m.config.slots)
    (hvalue : l.value m = .whole x) :
    ∃ ms m', Trace S.host S.code (l.bottom pc) (l.foot pc) ms m m' ∧
      l.Ready pc S.frame c (x + step) m' := by
  have hadvance := h.stands.advance
  rw [← hpc] at hadvance
  have ha := h.advance m.config.stack m hadvance rfl hcarries
  rw [advance_done h.lawful h.numbers hx h.fitsStep hsum ((h.guarded.read m).trans hvalue)] at ha
  obtain ⟨k,m₁,hgoes,hworld,hpc₁,_,hcarries₁⟩ := ha
  rw [hpc] at hgoes hpc₁
  obtain ⟨⟨ms,htrace⟩,_⟩ := hgoes.trace S.labels h.stands.advance (by rw [targets_advance]; simp)
    (Nat.le_of_eq hpc.symm)
  refine ⟨ms,m₁,htrace,hpc₁,hcarries₁,?_⟩
  rw [← h.guarded.read,hworld,World.read_write]

theorem body (h : l.Counts S pc f c limit step) {k : Nat} {y z : Moment}
    (hgoes : Goes S.host S.code (l.bottom pc) k y z) (hy : y.config.pc = l.top pc)
    (hz : z.config.pc = l.bottom pc) (hcarries : l.head.Carries S.frame c y.config.slots) :
    ∃ ms, Trace S.host S.code (l.top pc) (l.bottom pc) (y :: ms) y z ∧
      visits (l.top pc) (y :: ms) = [y] ∧ l.head.Carries S.frame c z.config.slots := by
  have hpositions := l.positions pc
  cases hgoes with
  | refl => omega
  | @succ _ _ y' _ hlt hstep hrest =>
    have hlabel := hstep
    rw [Moment.step,step_of_getElem? (by rw [hy]; exact h.stands.again)] at hlabel
    have hy' : y'.config.pc = l.top pc + 1 ∧ y'.config.slots = y.config.slots := by
      cases hlabel
      exact ⟨congrArg (· + 1) hy,rfl⟩
    obtain ⟨⟨ms,htrace⟩,hslots⟩ := hrest.trace S.labels h.stands.body h.guarded.body.targets
      (Nat.le_of_eq hy'.1.symm)
    refine ⟨ms,.cons (Nat.le_of_eq hy.symm) hlt hstep (htrace.mono (Nat.le_succ _) (Nat.le_refl _)),
      ?_,hcarries.keeps h.guarded.reserves ?_⟩
    · rw [visits_cons hy,htrace.visits_eq_nil (Nat.lt_succ_self _)]
    · intro n hn hname
      rw [hslots n fun hw => Nat.not_le.mpr hn (h.guarded.body.writes n hw hname),hy'.2]

/-- One round: the body is run once, with the number in the counter. -/
theorem round (h : l.Counts S pc f c limit step) (hbody : l.Completes S.host S.code pc m₀)
    (hreach : Trace S.host S.code (l.entry pc) (l.finish pc) ms₀ m₀ m) (hx : InRange x)
    (hsum : InRange (x + step)) (hkeeps : KeepsTo x limit step) (hr : l.Ready pc S.frame c x m) :
    ∃ ms m', Trace S.host S.code (l.entry pc) (l.finish pc) ms m m' ∧
      (visits (l.top pc) ms).map l.value = [.whole x] ∧ l.Ready pc S.frame c (x + step) m' := by
  have hpositions := l.positions pc
  obtain ⟨ms₁,y,htest,hy,hcarries,hvalue⟩ := h.tests hx hr
  rw [if_pos hkeeps] at hy
  have htest' := htest.mono (show l.entry pc ≤ l.foot pc by omega) (Nat.le_refl _)
  obtain ⟨k,z,hgoes,hz,hsame⟩ := hbody _ y (hreach.trans htest') hy
  obtain ⟨ms₂,hrun,hvisits,hcarries'⟩ := h.body hgoes hy hz hcarries
  obtain ⟨ms₃,m',hstep,hready⟩ := h.steps hx hsum hz hcarries' (hsame.trans hvalue)
  refine ⟨ms₁ ++ (y :: ms₂ ++ ms₃),m',htest'.trans ?_,?_,hready⟩
  · exact (hrun.mono (by omega) (by omega)).trans (hstep.mono (by omega) (by omega))
  · rw [visits_append,visits_append,htest.visits_eq_nil (by omega),hvisits,
      hstep.visits_eq_nil (by omega)]
    exact congrArg (fun v => [v]) hvalue

/-- Round after round, the body is run once with each number that the counter holds. -/
theorem rounds (h : l.Counts S pc f c limit step) (hbody : l.Completes S.host S.code pc m₀)
    (hreach : Trace S.host S.code (l.entry pc) (l.finish pc) ms₀ m₀ m)
    (hr : l.Ready pc S.frame c x m) : ∀ n : Nat, (∀ k ≤ n, InRange (x + k * step)) →
      (∀ k < n, KeepsTo (x + k * step) limit step) →
      ∃ ms m', Trace S.host S.code (l.entry pc) (l.finish pc) ms m m' ∧
        (visits (l.top pc) ms).map l.value = Value.progression x step n ∧
        l.Ready pc S.frame c (x + n * step) m' := by
  intro n
  induction n with
  | zero =>
    intro _ _
    exact ⟨[],m,.refl m,rfl,by simpa using hr⟩
  | succ n ih =>
    intro hfits hkeeps
    have hnext : x + ↑n * step + step = x + ↑(n + 1) * step := by
      rw [Int.natCast_succ,Int.add_mul,Int.one_mul,Int.add_assoc]
    obtain ⟨ms,m₁,htrace,hvalues,hready⟩ := ih (fun k hk => hfits k (Nat.le_succ_of_le hk))
      fun k hk => hkeeps k (Nat.lt_succ_of_lt hk)
    obtain ⟨ms',m₂,htrace',hvalue,hready'⟩ := h.round hbody (hreach.trans htrace)
      (hfits n (Nat.le_succ n)) (hnext ▸ hfits (n + 1) (Nat.le_refl _)) (hkeeps n (Nat.lt_succ_self n))
      hready
    refine ⟨ms ++ ms',m₂,htrace.trans htrace',?_,hnext ▸ hready'⟩
    rw [visits_append,List.map_append,hvalues,hvalue,Value.progression_succ]

/-- When the counter has passed the limit, control goes behind the loop. -/
theorem leaves (h : l.Counts S pc f c limit step) (hx : InRange x) (hkeeps : ¬ KeepsTo x limit step)
    (hr : l.Ready pc S.frame c x m) :
    ∃ ms m', Trace S.host S.code (l.entry pc) (l.finish pc) ms m m' ∧ visits (l.top pc) ms = [] ∧
      m'.config.pc = l.finish pc := by
  have hpositions := l.positions pc
  obtain ⟨ms,m',htest,hpc,_,_⟩ := h.tests hx hr
  rw [if_neg hkeeps] at hpc
  exact ⟨ms,m',htest.mono (by omega) (Nat.le_refl _),htest.visits_eq_nil (by omega),hpc⟩

end Counts
end rounds

/-- The stretch of code puts the value on the stack, and the instruction behind it is carried out. -/
def Sets (h : Host) (code part : Code) (m : Moment) (v : Machine.Value) (m' : Moment) : Prop :=
  ∃ k m₁, Goes h code (m.config.pc + part.length) k m m₁ ∧
    m₁.config.pc = m.config.pc + part.length ∧ m₁.config.stack = v :: m.config.stack ∧
    m₁.step h code = .running m'

inductive Settles (l : CountingLoop) (h : Host) (code : Code) (m : Moment) (step : Int64) :
    Moment → Prop
  | constant {ascending : Bool} (hstep : l.step = .constant (.integer step) ascending) :
    Settles l h code m step m
  | computed {n : Slot} {m' : Moment} (hstep : l.step = .dynamic n)
    (hset : Sets h code l.stepCode m (.scalar (.integer step)) m') : Settles l h code m step m'

/-- The code before the loop computes the three numbers. A counter that calls can reach is left as it is
while limit and step are computed. -/
def Starts (l : CountingLoop) (h : Host) (code : Code) (m : Moment) (first limit step : Int64)
    (m' : Moment) : Prop :=
  ∃ m₁ m₂, Sets h code l.first m (.scalar (.integer first)) m₁ ∧
    Sets h code l.last m₁ (.scalar (.integer limit)) m₂ ∧ l.Settles h code m₂ step m' ∧
    ∀ name, l.counter = .global name → m'.store.globals name = m₁.store.globals name

section starts

variable {h : Host} {code part : Code} {m m' : Moment} {v : Machine.Value} {p : Place} {pc : Nat}
  {n : Slot}

theorem Sets.cases (hset : Sets h code part m v m')
    (hi : code[m.config.pc + part.length]? = some (.store p)) :
    ∃ k m₁, Goes h code (m.config.pc + part.length) k m m₁ ∧
      m' = ⟨⟨m.config.pc + part.length + 1,m.config.stack,
        Machine.assign m₁.config.slots (write m₁.store v p).1⟩,(write m₁.store v p).2,m₁.calls⟩ := by
  obtain ⟨k,m₁,hgoes,hpc,hstack,hstep⟩ := hset
  rw [← hpc] at hi
  rw [Moment.step,step_of_getElem? hi,hstack] at hstep
  cases hstep
  exact ⟨k,m₁,hgoes,by rw [hpc]⟩

theorem Sets.stores (hset : Sets h code part m v m')
    (hi : code[m.config.pc + part.length]? = some (.store p)) :
    m'.config.pc = m.config.pc + part.length + 1 ∧ read m'.config.slots m'.store p = v := by
  obtain ⟨_,m₁,_,rfl⟩ := hset.cases hi
  exact ⟨rfl,read_write ..⟩

theorem Sets.fills (hset : Sets h code part m v m') (hlabels : code.labels.Nodup)
    (hpart : code.Has m.config.pc part) (hquiet : part.targets = [] ∧ part.writes = [])
    (hi : code[m.config.pc + part.length]? = some (.store (.slot n))) :
    m'.config.pc = m.config.pc + part.length + 1 ∧
      m'.config.slots = Function.update m.config.slots n v := by
  obtain ⟨_,m₁,hgoes,rfl⟩ := hset.cases hi
  obtain ⟨_,hkept⟩ := hgoes.trace hlabels hpart (by rw [hquiet.1]; simp) (Nat.le_refl _)
  have hslots : m₁.config.slots = m.config.slots :=
    funext fun k => hkept k (by rw [hquiet.2]; exact List.not_mem_nil)
  refine ⟨rfl,?_⟩
  rw [← hslots]
  rfl

theorem Settles.cases {step : Int64} {r : Routine} {e : Option Expr} {s s' : State}
    (hsettle : l.Settles h code m step m') (hlabels : code.labels.Nodup)
    (hpart : code.Has m.config.pc (l.step.settle l.stepCode))
    (hcase : StepCase r (.scalar .integer) s e (l.step.settle l.stepCode,l.step) s') :
    m'.config.pc = m.config.pc + (l.step.settle l.stepCode).length ∧
      (∃ stride : Stride, stride.Steps step.toInt ∧ l.step.Carries .integer m'.config.slots stride) ∧
      ∀ k, l.step ≠ .dynamic k → m'.config.slots k = m.config.slots k := by
  cases hsettle with
  | @constant ascending hstep =>
    have hsteps : (Stride.constant (.integer (Int64.ofInt step.toInt))).Steps step.toInt := .constant
    rw [Int64.ofInt_toInt] at hsteps
    rw [hstep,hcase.sign hstep]
    exact ⟨rfl,⟨_,hsteps,.constant (.integer step)⟩,fun _ _ => rfl⟩
  | @computed n _ hstep hset =>
    have hquiet := hcase.quiet hstep rfl
    rw [hstep] at hpart ⊢
    obtain ⟨hown,hstore⟩ := Code.has_append.mp hpart
    obtain ⟨hpc,hslots⟩ := hset.fills hlabels hown hquiet (Code.has_cons.mp hstore).1
    rw [hslots]
    refine ⟨?_,⟨_,.computed,.dynamic ?_⟩,fun k hk => Function.update_of_ne ?_ _ _⟩
    · rw [hpc,Step.settle,List.length_append]
      rfl
    · rw [Function.update_self,Value.whole_toInt]
    · rintro rfl
      exact hk rfl

theorem Guarded.not_nameless {f g : Frame} {x : Home} (hg : l.Guarded f g x)
    (hn : l.counter = .slot n) : ¬ g.Nameless n := by
  have hcounter := hg.counter
  rw [hn] at hcounter
  cases x with
  | global key => cases hcounter
  | own key =>
    obtain ⟨_,he,hslot⟩ := hcounter
    cases he
    exact fun hname => hname key hslot

/-- When control comes to the loop, the counter holds the first number, and the slots hold limit and
step. -/
theorem Starts.carries {first limit step : Int64} {f g : Frame} {x : Home} {r : Routine}
    {e : Option Expr} {s s' : State} (hstart : l.Starts h code m first limit step m')
    (hpc : m.config.pc = pc) (hlabels : code.labels.Nodup) (hs : l.Stands code pc)
    (hg : l.Guarded f g x) (hquiet : l.last.targets = [] ∧ l.last.writes = [])
    (hcase : StepCase r (.scalar .integer) s e (l.step.settle l.stepCode,l.step) s') :
    m'.config.pc = l.entry pc ∧ l.value m' = .whole first.toInt ∧
      ∃ c : Count, c.counter = x ∧ c.Over limit.toInt step.toInt ∧
        l.head.Carries g c m'.config.slots := by
  obtain ⟨m₁,m₂,hfirst,hlast,hsettle,hglobal⟩ := hstart
  subst hpc
  have hhead := hs.head
  rw [head_code] at hhead
  obtain ⟨_,hhead⟩ := Code.has_append.mp hhead
  obtain ⟨hstore₁,hhead⟩ := Code.has_cons.mp hhead
  obtain ⟨hpc₁,hvalue⟩ := hfirst.stores hstore₁
  rw [← hpc₁] at hhead
  obtain ⟨hlastCode,hhead⟩ := Code.has_append.mp hhead
  obtain ⟨hstore₂,hhead⟩ := Code.has_cons.mp hhead
  obtain ⟨hpc₂,hslots⟩ := hlast.fills hlabels hlastCode hquiet hstore₂
  rw [← hpc₂] at hhead
  obtain ⟨hpc',⟨stride,hsteps,hcarries⟩,hkept⟩ := hsettle.cases hlabels hhead hcase
  have hlimit : m'.config.slots l.limit = .whole limit.toInt := by
    rw [hkept l.limit hg.apart,hslots,Function.update_self,Value.whole_toInt]
  refine ⟨?_,?_,⟨x,.integer,.whole limit.toInt,stride⟩,rfl,⟨rfl,rfl,hsteps⟩,hg.counter,rfl,rfl,
    hlimit,hcarries⟩
  · rw [hpc',entry,head_code]
    simp only [List.length_append,List.length_cons]
    omega
  · rw [Value.whole_toInt,← hvalue]
    cases hcounter : l.counter with
    | global name =>
      rw [value,hcounter]
      exact hglobal name hcounter
    | slot n =>
      have hname := hg.not_nameless hcounter
      have hstep : l.step ≠ .dynamic n := fun hstep => hname (hg.reserves.step n hstep).2
      have hne : n ≠ l.limit := fun he => hname (he ▸ hg.reserves.limit.2)
      rw [value,hcounter]
      change m'.config.slots n = m₁.config.slots n
      rw [hkept n hstep,hslots,Function.update_of_ne hne]

end starts

/-- The loop that a statement becomes: its parts are put into code one after the other. -/
structure From (l : CountingLoop) (r : Routine) (s : State) (line : Line) (name : String)
    (first last : Expr) (step : Option Expr) (body : List Stmt) (s' : State) (found : Symbol × Nat)
    (t u v w : State) : Prop where
  resolved : s.scopes.resolve name = some found
  counter : (place r found line).Gives (s.touch found line) l.counter t
  first : (expr r first).Gives t ⟨l.first,.scalar .integer⟩ u
  last : (expr r last).Gives u ⟨l.last,.scalar .integer⟩ v
  limit : l.limit = v.frame.length
  step : StepCase r (.scalar .integer) { v with frame := v.frame.temp (.scalar .integer) } step
    (l.step.settle l.stepCode,l.step) w
  again : l.again = w.nextLabel
  test : l.test = w.nextLabel + 1
  body : (stmts r body).Gives { w with nextLabel := w.nextLabel + 2 } l.body s'

section lowering

variable {r : Routine} {s s' : State} {name : String} {line : Line} {first last : Expr}
  {step : Option Expr} {body : List Stmt} {code : Code}

variable {l : CountingLoop} {found : Symbol × Nat} {t u v w : State}

theorem From.guarded (h : l.From r s line name first last step body s' found t u v w)
    (hindexed : s.frame.Indexed) (hjumps : Stmt.Structured body) :
    s'.frame.Indexed ∧ ∃ x, l.Guarded w.frame s'.frame x := by
  have hst : s.frame.Grows t.frame := by
    rcases gives_place.mp h.counter with ⟨_,_,rfl⟩ | ⟨_,_,_,rfl⟩
    · exact .refl _
    · exact Frame.grows_localVar _ _ _
  have htv := (changes_of_gives h.first (stays_expr r first t)).frame.trans
    (changes_of_gives h.last (stays_expr r last u)).frame
  have hvw : (v.frame.temp (.scalar .integer)).Grows w.frame := h.step.frame
  have hws : w.frame.Grows s'.frame := (changes_of_gives h.body (stays_stmts r body _)).frame
  have hts := htv.trans ((Frame.grows_temp v.frame (.scalar .integer)).trans (hvw.trans hws))
  have hindexed' := (hst.trans hts).indexed hindexed
  have hlt := Frame.length_lt_temp v.frame (.scalar .integer)
  obtain ⟨x,_,hhouses⟩ := houses_place h.counter hts
  have henclosed := enclosed_stmts r body h.body hjumps
  refine ⟨hindexed',x,hhouses,⟨?_,h.step.reserves hindexed' hws⟩,fun hdynamic => ?_,henclosed⟩
  · have hlimit : l.head.limit = v.frame.length := h.limit
    rw [hlimit]
    exact ⟨Nat.lt_of_lt_of_le hlt hvw.length_le,
      Frame.nameless_of_grows (hvw.trans hws) hindexed'⟩
  · have hle : (v.frame.temp (.scalar .integer)).length ≤ l.limit :=
      h.step.le_of_dynamic l.limit hdynamic
    rw [h.limit] at hle
    exact absurd hle (Nat.not_le.mpr hlt)

end lowering

end CountingLoop
end Lowering
end StackCompiler
