import StackCompiler.Proofs.LoweringChanges

/-! Frames while a routine is put into code, and what the elementary changes do to a state.
Slots keep their numbers, types and names; a name that has a slot keeps that slot. -/
namespace StackCompiler

namespace Frame

/-- Every slot has the number of its position. -/
def Indexed (f : Frame) : Prop := ∀ (n : Nat) (info : SlotInfo), f[n]? = some info → info.index = n

theorem indexed_iff {f : Frame} : f.Indexed ↔ ∀ p ∈ f.zipIdx, p.1.index = p.2 := by
  constructor
  · rintro h ⟨info,n⟩ hp
    exact h n info (List.mem_zipIdx_iff_getElem?.mp hp)
  · intro h n info hn
    exact h (info,n) (List.mem_zipIdx_iff_getElem?.mpr hn)

instance (f : Frame) : Decidable f.Indexed := decidable_of_iff' _ indexed_iff

theorem indexed_nil : Indexed [] := by
  intro n info h
  simp at h

theorem Indexed.push {f : Frame} (h : f.Indexed) (type : Ty) (kind : SlotKind)
    (names : List String) : (f.push type kind names).Indexed := by
  intro n info hn
  rw [Frame.push,List.getElem?_append] at hn
  split at hn
  · exact h n info hn
  · next hge =>
    rw [List.getElem?_singleton] at hn
    split at hn
    · next hz =>
      obtain rfl := Option.some.inj hn
      have : n = f.length := by omega
      exact this.symm
    · cases hn

theorem slot?_push (f : Frame) (type : Ty) (kind : SlotKind) (names : List String) (name : String) :
    (f.push type kind names).slot? name =
      if names = [name] then some f.length else f.slot? name := by
  simp only [slot?,push,List.reverse_append,List.reverse_cons,List.reverse_nil,List.nil_append,
    List.cons_append,List.find?_cons]
  by_cases h : names = [name]
  · simp [h]
  · rw [if_neg h,show (names == [name]) = false by simpa using h]

theorem getElem?_of_slot? {f : Frame} (h : f.Indexed) {name : String} {n : Slot}
    (hs : f.slot? name = some n) : ∃ info, f[n]? = some info ∧ info.names = [name] := by
  obtain ⟨info,hf,rfl⟩ := Option.map_eq_some_iff.mp hs
  have hmem : info ∈ f := List.mem_reverse.mp (List.mem_of_find?_eq_some hf)
  obtain ⟨n,hn⟩ := List.getElem?_of_mem hmem
  refine ⟨info,?_,by simpa using List.find?_some hf⟩
  rw [h n info hn]
  exact hn

theorem slot?_lt {f : Frame} (h : f.Indexed) {name : String} {n : Slot}
    (hs : f.slot? name = some n) : n < f.length := by
  obtain ⟨info,hn,_⟩ := getElem?_of_slot? h hs
  exact (List.getElem?_eq_some_iff.mp hn).1

structure Grows (f g : Frame) : Prop where
  slots : f <+: g
  indexed : f.Indexed → g.Indexed
  names : ∀ name n, f.slot? name = some n → g.slot? name = some n

theorem Grows.refl (f : Frame) : f.Grows f :=
  ⟨List.prefix_refl f,id,fun _ _ => id⟩

theorem Grows.trans {f g h : Frame} (hfg : f.Grows g) (hgh : g.Grows h) : f.Grows h :=
  ⟨hfg.slots.trans hgh.slots,hgh.indexed ∘ hfg.indexed,
    fun name n hn => hgh.names name n (hfg.names name n hn)⟩

theorem Grows.length_le {f g : Frame} (h : f.Grows g) : f.length ≤ g.length := h.slots.length_le

theorem grows_temp (f : Frame) (type : Ty) : f.Grows (f.temp type) := by
  refine ⟨List.prefix_append _ _,fun h => h.push _ _ _,fun name n hn => ?_⟩
  rw [temp,slot?_push,if_neg (by simp)]
  exact hn

theorem length_lt_temp (f : Frame) (type : Ty) : f.length < (f.temp type).length := by
  rw [temp,length_push]
  exact Nat.lt_succ_self _

theorem grows_localVar (f : Frame) (name : String) (type : Ty) : f.Grows (f.localVar name type).2 := by
  unfold localVar
  split
  · exact .refl f
  · next hnone =>
    refine ⟨List.prefix_append _ _,fun h => h.push _ _ _,fun name' n hn => ?_⟩
    rw [slot?_push,if_neg ?_]
    · exact hn
    · intro he
      obtain rfl : name = name' := by simpa using he
      rw [hn] at hnone
      cases hnone

theorem slot?_localVar (f : Frame) (name : String) (type : Ty) :
    (f.localVar name type).2.slot? name = some (f.localVar name type).1 := by
  unfold localVar
  split
  · next h => exact h
  · rw [slot?_push,if_pos rfl]

theorem localVar_lt {f : Frame} (h : f.Indexed) (name : String) (type : Ty) :
    (f.localVar name type).1 < (f.localVar name type).2.length :=
  slot?_lt ((grows_localVar f name type).indexed h) (slot?_localVar f name type)

end Frame

namespace Lowering.State

variable {r : Routine} {s s' : State}

theorem Changes.frame (h : s.Changes r s') : s.frame.Grows s'.frame := by
  induction h with
  | refl => exact .refl _
  | tail _ hstep ih =>
    refine ih.trans ?_
    cases hstep with
    | temp type => exact Frame.grows_temp _ type
    | slot => exact Frame.grows_localVar _ _ _
    | result => exact Frame.grows_localVar _ _ _
    | label | record | touch | share | declare => exact .refl _

theorem Changes.nextLabel_le (h : s.Changes r s') : s.nextLabel ≤ s'.nextLabel := by
  induction h with
  | refl => exact Nat.le_refl _
  | tail _ hstep ih =>
    refine Nat.le_trans ih ?_
    cases hstep with
    | label => exact Nat.le_succ _
    | temp | slot | result | record | touch | share | declare => exact Nat.le_refl _

theorem Changes.errors (h : s.Changes r s') : s.errors <+: s'.errors := by
  induction h with
  | refl => exact List.prefix_refl _
  | tail _ hstep ih =>
    refine ih.trans ?_
    cases hstep with
    | record => exact List.prefix_append _ _
    | temp | slot | result | label | touch | share | declare => exact List.prefix_refl _

theorem Changes.outline (h : s.Changes r s') : s'.scopes.outline = s.scopes.outline := by
  induction h with
  | refl => rfl
  | tail _ hstep ih =>
    rw [← ih]
    cases hstep with
    | touch found line => exact ScopeStack.outline_touch _ found line
    | share h => exact ScopeStack.outline_share h
    | declare _ h =>
      obtain ⟨_,_,_,_,rfl⟩ := declare_cases h
      exact ScopeStack.outline_add _ _
    | label | record | temp | slot | result => rfl

/-- Where no diagnostic was recorded from first to last, none was on the way. -/
theorem errors_eq {xs ys zs : List Diagnostic} (h₁ : xs <+: ys) (h₂ : ys <+: zs) (he : zs = xs) :
    ys = xs ∧ zs = ys := by
  have hle : ys.length ≤ xs.length := he ▸ h₂.length_le
  have hys : xs = ys := h₁.eq_of_length (Nat.le_antisymm h₁.length_le hle)
  exact ⟨hys.symm,he.trans hys⟩

end Lowering.State

namespace Lowering

open Lower

section errors

variable {r : Routine} {cond : Expr} {yes no body : List Stmt} {test code more : Code} {n : Nat}
  {s t u s' : State}

theorem errors_of_branches (htest : (condition r cond).Gives s test t)
    (hyes : (stmts r yes).Gives { t with nextLabel := n } code u) (hno : (stmts r no).Gives u more s')
    (herr : s'.errors = s.errors) : u.errors = t.errors ∧ s'.errors = u.errors := by
  have ht := changes_of_gives htest (stays_condition (r := r))
  have hu := changes_of_gives hyes (stays_stmts r yes _)
  have hs := changes_of_gives hno (stays_stmts r no u)
  have herr' := (State.errors_eq ht.errors (hu.errors.trans hs.errors) herr).2
  exact State.errors_eq hu.errors hs.errors herr'

/-- A loop that records no diagnostic records none in its body. -/
theorem errors_of_body (hbody : (stmts r body).Gives { s with nextLabel := n } code t)
    (htest : (condition r cond).Gives t test s') (herr : s'.errors = s.errors) :
    t.errors = s.errors := by
  have ht := changes_of_gives hbody (stays_stmts r body _)
  have hs := changes_of_gives htest (stays_condition (r := r))
  exact (State.errors_eq ht.errors hs.errors herr).1

theorem errors_of_forTo {name : String} {first last : Expr} {step : Option Expr} {line : Line}
    {head : ForHead} (hhead : (forHead r name first last step line).Gives s head t)
    (hbody : (stmts r body).Gives { t with nextLabel := n } code s') (herr : s'.errors = s.errors) :
    s'.errors = t.errors := by
  have ht := changes_of_gives hhead (stays_forHead (r := r))
  have hs := changes_of_gives hbody (stays_stmts r body _)
  exact (State.errors_eq ht.errors hs.errors herr).2

end errors

end Lowering

theorem Lowering.gives_of_recover {r : Routine} {x : Lower Code} {s s' : State} {code : Code}
    (h : (Lower.recover x).Gives s code s') (hx : x.Stays r s) (he : s'.errors = s.errors) :
    x.Gives s code s' := by
  rcases Lower.gives_recover.mp h with h | ⟨d,t,hrun,_,_,rfl⟩
  · exact h
  · have hle : s.errors.length ≤ t.errors.length := by
      have hchanges := hx.alters
      rw [hrun] at hchanges
      exact State.Changes.errors hchanges |>.length_le
    have hlen : (t.errors ++ [d]).length = s.errors.length := congrArg List.length he
    rw [List.length_append,List.length_singleton] at hlen
    omega

end StackCompiler
