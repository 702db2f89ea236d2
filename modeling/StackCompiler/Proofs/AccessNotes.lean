import StackCompiler.Proofs.LoweredAccesses
import StackCompiler.Proofs.StackNotes

/-! The notes of the stack where an element is addressed or an array is made.
A subscript of a dimension with a dynamic extent was compared with the bounds, a literal subscript of a
fixed one is known and lies in its range, and the fixed extents of a new array are known. -/
namespace StackCompiler.Lowering

open Lower Code

/-- The notes of the subscripts of an array from a dimension on: where the extent is dynamic, the subscript
was compared with the bounds; a literal is known, and where the extent is fixed, lies in its range. -/
inductive Guarded (array : Place) : Nat → List Extent → List Expr → List Note → Prop
  | nil (dim : Nat) : Guarded array dim [] [] []
  | cons {dim : Nat} {extent : Extent} {extents : List Extent} {index : Expr} {rest : List Expr}
    {n : Note} {ns : List Note} (hchecked : extent = .dynamic → n.checked = some (array,dim))
    (hvalue : ∀ l, index.integer? = some l → n.value = some (.integer l))
    (hrange : ∀ k l, extent = .fixed k → index.integer? = some l → 1 ≤ l ∧ l ≤ k.toInt64)
    (hrest : Guarded array (dim + 1) extents rest ns) :
    Guarded array dim (extent :: extents) (index :: rest) (n :: ns)

section guarded

variable {r : Routine} {array : Place}

theorem Guarded.length_eq {dim : Nat} {extents : List Extent} {indices : List Expr} {ns : List Note}
    (h : Guarded array dim extents indices ns) : ns.length = indices.length := by
  induction h with
  | nil => rfl
  | cons _ _ _ _ ih => simp [ih]

/-- The notes of the extents of an array: fixed ones are known. -/
def Sized (dimensions : List Extent) (ns : List Note) : Prop :=
  List.Forall₂ (fun extent (n : Note) => ∀ k, extent = .fixed k → n.value = some (.integer k.toInt64))
    dimensions ns

theorem notes_extents {d : Declaration} : ∀ (dimensions : List Extent) {sizes : List Expr}
    {s : State} {code : Code} {s' : State}, (extents r d dimensions sizes).Gives s code s' →
      ∃ ns, Sized dimensions ns ∧ ∀ below, code.notes below = ns.reverse ++ below
  | [], _, _, _, _, h => by
    rw [extents] at h
    rw [(gives_pure.mp h).1]
    exact ⟨[],.nil,fun _ => rfl⟩
  | .fixed k :: rest, _, _, _, _, h => by
    obtain ⟨more,hm,rfl⟩ := gives_extents_fixed.mp h
    obtain ⟨ns,hns,hmore⟩ := notes_extents rest hm
    let n : Note := { Note.unknown with value := some (.integer k.toInt64) }
    refine ⟨n :: ns,.cons (fun _ hk => Extent.fixed.inj hk ▸ rfl) hns,fun below => ?_⟩
    change notes more (n :: below) = _
    simp [hmore]
  | .dynamic :: _, [], _, _, _, h => by
    rw [extents] at h
    exact absurd h gives_fail
  | .dynamic :: rest, size :: _, _, _, _, h => by
    obtain ⟨x,t,more,hx,_,hm,rfl⟩ := gives_extents_dynamic.mp h
    obtain ⟨n,hn⟩ := (pushes_expr r size hx).exists_note
    obtain ⟨ns,hns,hmore⟩ := notes_extents rest hm
    refine ⟨n :: ns,.cons (by simp) hns,fun below => ?_⟩
    simp [notes_append,hn,hmore]

end guarded

end Lowering

/-- The array of an element instruction, how many values lie above the subscripts, and their number. -/
def Instr.element? : Instr → Option (Place × Nat × Nat)
  | loadElement p rank => some (p,0,rank)
  | storeElement p rank => some (p,1,rank)
  | _ => none

namespace Lowering

open Lower Code

section sites

variable {Γ : Context} {depth : Nat} {xs : List Access} {code : Code} {pc : Nat} {array : Place}

theorem exists_site {i : Instr} (h : code.Sited (Site Γ depth) xs) (hi : code[pc]? = some i)
    (ha : i.addresses = true) :
    ∃ x before seg, xs[code.accessNumber pc]? = some x ∧ code.take pc = before ++ seg ∧
      Site Γ depth x i seg := by
  have hsplit : code = code.take pc ++ i :: code.drop (pc + 1) := by
    obtain ⟨hlt,rfl⟩ := List.getElem?_eq_some_iff.mp hi
    simp
  obtain ⟨x,seg,hx,⟨before,hbefore⟩,hsite⟩ := h.site _ i _ hsplit ha
  exact ⟨x,before,seg,hx,hbefore.symm,hsite⟩

/-- Before an array is made the notes of its extents lie on the stack. -/
theorem exists_sized {element : BaseType} {rank : Nat} (h : code.Sited (Site Γ depth) xs)
    (hi : code[pc]? = some (.alloc array element rank)) :
    ∃ type ns below, Γ.place array type ∧ (depth ≠ 0 → ∃ n, array = .slot n) ∧ rank = type.rank ∧
      Sized type.dimensions ns ∧ code.notesAt pc = ns.reverse ++ below := by
  obtain ⟨x,before,seg,_,hseg,hsite⟩ := exists_site h hi rfl
  cases hsite with
  | alloc hp hdepth hs =>
    obtain ⟨ns,hns,hnotes⟩ := notes_extents _ hs
    refine ⟨_,ns,notes before [],hp,hdepth,rfl,hns,?_⟩
    rw [notesAt,hseg,notes_append,hnotes]

end sites

end Lowering
end StackCompiler
