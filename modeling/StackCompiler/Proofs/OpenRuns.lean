import StackCompiler.Proofs.Patches

/-! Runs of one routine whose calls are answered from outside.
What the operators compute and what a call does to the store is left open; an answer may depend on
all the calls made so far. -/
namespace StackCompiler.Machine

structure Call where
  target : CallTarget
  args : List Value
  store : Store

/-- The operators, and the answers to calls; the last call is the one to be answered. -/
structure Host where
  operations : Operations
  answer : List Call → Reply

structure Moment where
  config : Config
  store : Store
  calls : List Call

inductive Stage
  | running (m : Moment)
  | ended (e : Ending) (m : Moment)

namespace Moment

def perform (m : Moment) (h : Host) : Action → Stage
  | .next c t => .running { m with config := c, store := t }
  | .call target args returns c =>
    let calls := m.calls ++ [⟨target,args,m.store⟩]
    match h.answer calls with
    | .halt e t => .ended e { m with store := t, calls }
    | .resume t v =>
      match c.resume returns v with
      | some d => .running ⟨d,t,calls⟩
      | none => .ended .trapped { m with store := t, calls }
  | .ret v => .ended (.returned v) m
  | .trap => .ended .trapped m
  | .underflow => .ended .underflow m

def step (m : Moment) (h : Host) (code : Code) : Stage :=
  m.perform h (Machine.step h.operations code m.config m.store)

end Moment

/-- A number of steps, fewer if the run ends or comes to the position `stop` before. -/
def runTo (h : Host) (code : Code) (stop : Nat) : Nat → Stage → Stage
  | 0, x => x
  | _ + 1, .ended e m => .ended e m
  | n + 1, .running m =>
    if m.config.pc = stop then .running m else runTo h code stop n (m.step h code)

/-- A number of steps, each of them taken before the position `stop`. -/
inductive Goes (h : Host) (code : Code) (stop : Nat) : Nat → Moment → Moment → Prop
  | refl (m : Moment) : Goes h code stop 0 m m
  | succ {n : Nat} {m m' m'' : Moment} (hpc : m.config.pc < stop) (hstep : m.step h code = .running m')
    (hrest : Goes h code stop n m' m'') : Goes h code stop (n + 1) m m''

section runs

variable {h : Host} {code : Code} {stop stop' n k : Nat} {m m' m'' : Moment}

theorem Goes.trans (h₁ : Goes h code stop n m m') (h₂ : Goes h code stop k m' m'') :
    Goes h code stop (n + k) m m'' := by
  induction h₁ with
  | refl => simpa using h₂
  | succ hpc hstep _ ih =>
    rw [Nat.add_right_comm]
    exact .succ hpc hstep (ih h₂)

theorem Goes.mono (hgoes : Goes h code stop n m m') (hle : stop ≤ stop') :
    Goes h code stop' n m m' := by
  induction hgoes with
  | refl => exact .refl _
  | succ hpc hstep _ ih => exact .succ (Nat.lt_of_lt_of_le hpc hle) hstep ih

theorem Goes.one (hpc : m.config.pc < stop) (hstep : m.step h code = .running m') :
    Goes h code stop 1 m m' :=
  .succ hpc hstep (.refl m')

theorem runTo_ended (e : Ending) : runTo h code stop n (.ended e m) = .ended e m := by
  cases n <;> rfl

theorem runTo_stop (hpc : m.config.pc = stop) : runTo h code stop n (.running m) = .running m := by
  cases n with
  | zero => rfl
  | succ n => rw [runTo,if_pos hpc]

/-- A run before the position passes through every moment on the way. -/
theorem Goes.runTo (hgoes : Goes h code stop n m m') :
    runTo h code stop (n + k) (.running m) = runTo h code stop k (.running m') := by
  induction hgoes with
  | refl => rw [Nat.zero_add]
  | succ hpc hstep _ ih =>
    rw [Nat.add_right_comm,Machine.runTo,if_neg (Nat.ne_of_lt hpc),hstep]
    exact ih

theorem runTo_add (x : Stage) :
    runTo h code stop (n + k) x = runTo h code stop k (runTo h code stop n x) := by
  induction n generalizing x with
  | zero => rw [Nat.zero_add]; rfl
  | succ n ih =>
    rw [Nat.add_right_comm]
    cases x with
    | ended e m => rw [runTo_ended,runTo_ended,runTo_ended]
    | running m =>
      rw [runTo,runTo]
      split
      · next hpc => rw [runTo_stop hpc]
      · exact ih _

end runs

end StackCompiler.Machine
