import StackCompiler.Proofs.EvaluatedBodies
import StackCompiler.Proofs.Optimization

/-! The code of a unit does what the unit means.
Whatever comes of evaluating statements comes of running their code from the same variables, store and
calls: they come to their end, they end early in the same way, or neither ends. -/
namespace StackCompiler

open Evaluation

namespace Machine

/-- What comes of the moment in a routine: the position `stop` with the stack of the beginning, an
ending, or neither in any number of steps. -/
def Comes (h : Host) (rc : RoutineCode) (stop : Nat) (k : Moment) : Outcome Unit → Prop
  | .done _ w => ∃ n m, runTo h rc.code stop n (.running k) = .running m ∧ m.config.pc = stop ∧
      m.config.stack = k.config.stack ∧ m.world rc.frame = w
  | .ended e w => ∃ n m, runTo h rc.code stop n (.running k) = .ended e m ∧ m.world rc.frame = w
  | .unfinished => ∀ n, ∃ m, runTo h rc.code stop n (.running k) = .running m ∧ m.config.pc ≠ stop

/-- The run has ended or has come to the position. -/
def Stage.Settled (stop : Nat) : Stage → Prop
  | running m => m.config.pc = stop
  | ended _ _ => True

def Stage.outcome (f : Frame) : Stage → Outcome Unit
  | running m => .done () (m.world f)
  | ended e m => .ended e (m.world f)

section comes

variable {h : Host} {rc : RoutineCode} {stop : Nat} {k : Moment} {out out' : Outcome Unit}

theorem runTo_settled {code : Code} {n : Nat} {x : Stage} (hx : (runTo h code stop n x).Settled stop)
    (j : Nat) : runTo h code stop (n + j) x = runTo h code stop n x := by
  rw [runTo_add]
  cases hy : runTo h code stop n x with
  | ended e m => exact runTo_ended e
  | running m =>
    rw [hy] at hx
    exact runTo_stop hx

theorem eq_of_settled {code : Code} {n n' : Nat} {x : Stage}
    (hx : (runTo h code stop n x).Settled stop) (hx' : (runTo h code stop n' x).Settled stop) :
    runTo h code stop n x = runTo h code stop n' x := by
  rw [← runTo_settled hx n',Nat.add_comm,runTo_settled hx' n]

theorem Comes.cases (hc : Comes h rc stop k out) :
    (out = .unfinished ∧ ∀ n, ¬ (runTo h rc.code stop n (.running k)).Settled stop) ∨
      ∃ n, (runTo h rc.code stop n (.running k)).Settled stop ∧
        out = (runTo h rc.code stop n (.running k)).outcome rc.frame := by
  cases out with
  | done _ w =>
    obtain ⟨n,m,hrun,hpc,_,rfl⟩ := hc
    refine .inr ⟨n,?_⟩
    rw [hrun]
    exact ⟨hpc,rfl⟩
  | ended e w =>
    obtain ⟨n,m,hrun,rfl⟩ := hc
    refine .inr ⟨n,?_⟩
    rw [hrun]
    exact ⟨trivial,rfl⟩
  | unfinished =>
    refine .inl ⟨rfl,fun n => ?_⟩
    obtain ⟨m,hrun,hne⟩ := hc n
    rw [hrun]
    exact hne

theorem Comes.unique (h₁ : Comes h rc stop k out) (h₂ : Comes h rc stop k out') : out = out' := by
  rcases h₁.cases with ⟨rfl,hnone⟩ | ⟨n,hn,rfl⟩
  · rcases h₂.cases with ⟨rfl,_⟩ | ⟨n',hn',_⟩
    · rfl
    · exact absurd hn' (hnone n')
  · rcases h₂.cases with ⟨_,hnone⟩ | ⟨n',hn',rfl⟩
    · exact absurd hn (hnone n)
    · rw [eq_of_settled hn hn']

end comes

end Machine

namespace Evaluation

end Evaluation

namespace Machine

section runs

variable {S : Scene} {bound : Nat} {part : Code} {act : Nat → Eval Unit} {k : Moment}
  {out : Outcome Unit} {rc : RoutineCode}

end runs
end Machine

namespace Lowering

open Machine

def quiet : Host where
  operations := .folding
  answer calls := .resume ((calls.getLast?.map Call.store).getD ⟨fun _ => .nothing,[]⟩) none

/-- What the variable of the outermost scope holds at the end, and how many calls were made. -/
def summary (name : String) : Outcome Unit → Option (Machine.Value × Nat)
  | .done _ w => some (w.store.globals name,w.calls.length)
  | _ => none

end Lowering
end StackCompiler
