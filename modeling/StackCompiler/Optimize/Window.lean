import StackCompiler.Code.Instr
import StackCompiler.Optimize.Folding

/-! Short windows of code and what replaces them.
A pass goes over the code once and replaces every window that a rule matches; then the code between an
unconditional transfer and the next label is dropped. Passes are repeated until none changes
anything. Every replacement takes away an instruction, a load or a conditional branch, which bounds
the passes. -/
namespace StackCompiler

namespace Window

/-- How many instructions a rule matches at the front, and what replaces them. -/
def rule? : Code → Option (Nat × Code)
  | .const l :: .const r :: .binary op operand :: _ =>
    (Folding.binary? op operand l r).map fun v => (3,[.const v])
  | .const (.integer n) :: .convert :: _ => some (2,[.const (.double (Literal.toDouble n))])
  | .const v :: .unary op _ :: _ => (Folding.unary? op v).map fun v => (2,[.const v])
  | .load p :: .store q :: _ => if p = q then some (2,[]) else none
  | .store p :: .load q :: _ => if p = q then some (2,[.dup,.store p]) else none
  | .branch l :: .label m :: _ => if l = m then some (1,[]) else none
  | .branchIf _ l :: .label m :: _ => if l = m then some (1,[.pop]) else none
  | .const (.boolean v) :: .branchIf flag l :: _ =>
    some (2,if v = flag then [.branch l] else [])
  | .const _ :: .pop :: _ | .load _ :: .pop :: _ | .dup :: .pop :: _ => some (2,[])
  | _ => none

theorem rule?_bounds {code replacement : Code} {n : Nat} (h : rule? code = some (n,replacement)) :
    0 < n ∧ n ≤ code.length := by
  unfold rule? at h
  split at h
  all_goals simp_all
  all_goals omega

/-- A piece of code after a pass: an instruction that stays, or a window with its replacement. -/
inductive Segment
  | kept (i : Instr)
  | replaced (window replacement : Code)

namespace Segment

def source : Segment → Code
  | kept i => [i]
  | replaced window _ => window

def code : Segment → Code
  | kept i => [i]
  | replaced _ replacement => replacement

def replacement? : Segment → Option (Code × Code)
  | kept _ => none
  | replaced window replacement => some (window,replacement)

end Segment

/-- The pieces of a pass; the number counts the instructions at the front that belong to the window
before. -/
def segments : Nat → Code → List Segment
  | _, [] => []
  | n + 1, _ :: rest => segments n rest
  | 0, i :: rest =>
    match rule? (i :: rest) with
    | some (n,replacement) =>
      .replaced ((i :: rest).take n) replacement :: segments (n - 1) rest
    | none => .kept i :: segments 0 rest

theorem flatMap_source_segments (n : Nat) (code : Code) :
    (segments n code).flatMap Segment.source = code.drop n := by
  induction code generalizing n with
  | nil => simp [segments]
  | cons i rest ih =>
    cases n with
    | succ n => simp [segments,ih]
    | zero =>
      rw [segments]
      split
      · next n replacement h =>
        obtain ⟨m,rfl⟩ := Nat.exists_eq_succ_of_ne_zero (Nat.ne_of_gt (rule?_bounds h).1)
        simp [Segment.source,ih,List.take_append_drop]
      · simp [Segment.source,ih]

def isLabel : Instr → Bool
  | .label _ => true
  | _ => false

/-- Drops what control cannot reach; `live` says whether it reaches the front. -/
def reachable : Bool → Code → Code
  | _, [] => []
  | live, i :: rest =>
    if live || isLabel i then i :: reachable (!i.endsFlow) rest else reachable false rest

theorem length_reachable_le (live : Bool) (code : Code) :
    (reachable live code).length ≤ code.length := by
  induction code generalizing live with
  | nil => simp [reachable]
  | cons i rest ih =>
    rw [reachable]
    split
    · simpa using ih _
    · exact Nat.le_succ_of_le (ih _)

/-- What every change makes smaller. -/
def weight (code : Code) : Nat :=
  code.length + code.countP fun
    | .load _ | .branchIf .. => true
    | _ => false

end Window

/-- Code in which no rule matches, the number of changes, and the replacements in order. -/
structure Simplified where
  code : Code
  changes : Nat
  replacements : List (Code × Code)

namespace Window

def passes : Nat → Code → Simplified
  | 0, code => ⟨code,0,[]⟩
  | n + 1, code =>
    let pieces := segments 0 code
    let replacements := pieces.filterMap Segment.replacement?
    let joined := (pieces.map Segment.code).flatten
    let result := reachable true joined
    let changes := replacements.length + (joined.length - result.length)
    if changes = 0 then ⟨code,0,[]⟩
    else
      let rest := passes n result
      ⟨rest.code,changes + rest.changes,replacements ++ rest.replacements⟩

end Window

def Code.simplify (code : Code) : Simplified := Window.passes (Window.weight code) code

end StackCompiler
