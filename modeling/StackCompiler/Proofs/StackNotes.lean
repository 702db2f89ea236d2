import Mathlib.Data.List.Forall2
import StackCompiler.Proofs.Heights

/-! What is known of the values on the operand stack.
A constant is known, and so is that a value was compared with the bounds of an array. The notes are kept
from the first instruction to the last as if there were no jumps; since the stack is empty wherever
control comes from elsewhere, they hold on every path. -/
namespace StackCompiler

/-- What is known of a value: the constant that it is, and the dimension of an array whose bounds it was
compared with. -/
structure Note where
  value : Option Literal
  checked : Option (Place × Nat)

def Note.unknown : Note := ⟨none,none⟩

def Instr.note : Instr → List Note → List Note
  | .const l, ns => { Note.unknown with value := some l } :: ns
  | .checkBounds p dim, n :: ns => { n with checked := some (p,dim) } :: ns
  | i, ns => .replicate i.pushes .unknown ++ ns.drop i.pops

namespace Instr

theorem length_note (i : Instr) (ns : List Note) : (i.note ns).length = i.height ns.length := by
  cases i <;> cases ns <;> simp +arith [note,height,pops,pushes]

/-- What lies below the values that an instruction needs is not touched. -/
theorem note_append {i : Instr} {ns : List Note} (h : i.needs ≤ ns.length) (below : List Note) :
    i.note (ns ++ below) = i.note ns ++ below := by
  have hdrop (hpops : i.pops ≤ ns.length) :
      .replicate i.pushes .unknown ++ (ns ++ below).drop i.pops =
        .replicate i.pushes .unknown ++ ns.drop i.pops ++ below := by
    rw [List.drop_append_of_le_length hpops,List.append_assoc]
  cases i with
  | const => rfl
  | checkBounds =>
    obtain ⟨n,rest,rfl⟩ := List.exists_cons_of_length_pos h
    rfl
  | _ => exact hdrop h

end Instr

namespace Code

def notes (code : Code) (ns : List Note) : List Note := code.foldl (fun ns i => i.note ns) ns

theorem notes_append (a b : Code) (ns : List Note) : (a ++ b).notes ns = b.notes (a.notes ns) :=
  List.foldl_append

theorem length_notes {code : Code} {ms ms' : List Mark} {ns : List Note}
    (h : code.marks ms = some ms') (hlen : ns.length = ms.length) :
    (code.notes ns).length = ms'.length := by
  induction code generalizing ms ns with
  | nil =>
    cases h
    exact hlen
  | cons i rest ih =>
    obtain ⟨ms₁,hmark,hrest⟩ := Option.bind_eq_some_iff.mp h
    refine ih hrest ?_
    rw [Instr.length_note,hlen,Instr.length_of_mark hmark]

/-- Straight code leaves alone what lies below the values that it finds. -/
theorem notes_below {code : Code} {ms ms' : List Mark} {ns : List Note}
    (h : code.marks ms = some ms') (hs : code.Straight) (hlen : ns.length = ms.length)
    (below : List Note) : code.notes (ns ++ below) = code.notes ns ++ below := by
  induction code generalizing ms ns with
  | nil => rfl
  | cons i rest ih =>
    obtain ⟨ms₁,hmark,hrest⟩ := Option.bind_eq_some_iff.mp h
    have hret : i ≠ .ret true := by
      rintro rfl
      cases hs _ List.mem_cons_self
    have hneeds : i.needs ≤ ns.length := by
      rw [hlen]
      exact (Instr.suits_of_mark hmark).enough hret
    have hnext : (i.note ns).length = ms₁.length := by
      rw [Instr.length_note,hlen,Instr.length_of_mark hmark]
    change notes rest (i.note (ns ++ below)) = _
    rw [Instr.note_append hneeds]
    exact ih hrest (fun j hj => hs j (List.mem_cons_of_mem _ hj)) hnext

theorem Pushes.exists_note {code : Code} (h : code.Pushes) :
    ∃ n, ∀ below, code.notes below = n :: below := by
  have hone : (code.notes []).length = 1 := length_notes (h.marks []) rfl
  obtain ⟨n,hn⟩ := List.length_eq_one_iff.mp hone
  refine ⟨n,fun below => ?_⟩
  have hbelow : code.notes ([] ++ below) = code.notes [] ++ below :=
    notes_below (h.marks []) h.straight rfl below
  rwa [hn] at hbelow

def notesAt (code : Code) (pc : Nat) : List Note := notes (code.take pc) []

@[simp] theorem notesAt_zero (code : Code) : code.notesAt 0 = [] := by
  simp [notesAt,notes]

theorem notesAt_succ {code : Code} {pc : Nat} {i : Instr} (hi : code[pc]? = some i) :
    code.notesAt (pc + 1) = i.note (code.notesAt pc) := by
  rw [notesAt,notesAt,List.take_add_one,hi,Option.toList_some,notes_append]
  rfl

theorem length_notesAt {code : Code} {pc : Nat} {ms : List Mark} (h : code.marksAt pc = some ms) :
    (code.notesAt pc).length = ms.length :=
  length_notes h rfl

theorem Disciplined.notesAt_label {code : Code} (h : code.Disciplined) {pc : Nat} {l : Label}
    (hi : code[pc]? = some (.label l)) : code.notesAt pc = [] :=
  List.length_eq_zero_iff.mp (length_notesAt (h.marksAt_label hi))

end Code

namespace Machine

/-- The variables with these names hold the arrays that they held before, and all arrays have kept their
extents. -/
structure Store.Keeps (arrays : String → Prop) (s t : Store) : Prop where
  globals : ∀ g a, arrays g → s.globals g = .array a → t.globals g = .array a
  extents : ∀ (a : Nat) (b : Block), s.arrays[a]? = some b →
    ∃ b', t.arrays[a]? = some b' ∧ b'.extents = b.extents

section stores

variable {arrays : String → Prop} {slots : Slot → Value} {s t : Store} {array v : Value}

theorem Store.Keeps.refl (arrays : String → Prop) (s : Store) : s.Keeps arrays s :=
  ⟨fun _ _ _ h => h,fun _ b h => ⟨b,h,rfl⟩⟩

theorem Store.Keeps.update (h : s.Keeps arrays t) {g : String} (hg : ¬ arrays g) (v : Value) :
    s.Keeps arrays { t with globals := Function.update t.globals g v } := by
  refine ⟨fun g' a hg' ha => ?_,h.extents⟩
  have hne : g' ≠ g := fun he => hg (he ▸ hg')
  exact (Function.update_of_ne hne _ _).trans (h.globals g' a hg' ha)

theorem Store.inBounds_iff {dim : Nat} :
    s.inBounds array dim v = true ↔ ∃ a b extent i, array = .array a ∧ s.arrays[a]? = some b ∧
      b.extents[dim]? = some extent ∧ v.integer? = some i ∧ 1 ≤ i ∧ i ≤ extent := by
  constructor
  · intro h
    unfold inBounds at h
    split at h
    · next extent i hextent hi =>
      obtain ⟨b,hb,hdim⟩ := Option.bind_eq_some_iff.mp hextent
      cases array with
      | array a =>
        simp only [Bool.and_eq_true,decide_eq_true_eq] at h
        exact ⟨a,b,extent,i,rfl,hb,hdim,hi,h⟩
      | scalar | nothing => cases hb
    · cases h
  · rintro ⟨a,b,extent,i,rfl,hb,hextent,hi,hrange⟩
    have hblock : s.block? (.array a) = some b := hb
    simp [inBounds,hblock,hextent,hi,hrange]

theorem Store.Keeps.inBounds (h : s.Keeps arrays t) {p : Place} {dim : Nat}
    (hp : ∀ g, p = .global g → arrays g) (hin : s.inBounds (read slots s p) dim v = true) :
    t.inBounds (read slots t p) dim v = true := by
  obtain ⟨a,b,extent,i,harray,hb,hextent,hi,hrange⟩ := Store.inBounds_iff.mp hin
  obtain ⟨b',hb',hsame⟩ := h.extents a b hb
  refine Store.inBounds_iff.mpr ⟨a,b',extent,i,?_,hb',hsame ▸ hextent,hi,hrange⟩
  cases p with
  | slot n => exact harray
  | global g => exact h.globals g a (hp g rfl) harray

theorem Store.keeps_setElement? {subscripts : List Value}
    (h : s.setElement? array subscripts v = some t) : s.Keeps arrays t := by
  obtain ⟨a,b,elements,hb,rfl⟩ := Store.setElement?_eq_some h
  refine ⟨fun _ _ _ h => h,fun a' b' hb' => ?_⟩
  by_cases ha : a = a'
  · subst ha
    obtain rfl := Option.some.inj (hb.symm.trans hb')
    exact ⟨{ b with elements },List.getElem?_set_self (List.getElem?_eq_some_iff.mp hb).1,rfl⟩
  · exact ⟨b',(List.getElem?_set_ne ha).trans hb',rfl⟩

theorem Store.keeps_allocate? {element : BaseType} {extents : List Value}
    (h : s.allocate? element extents = some (array,t)) : s.Keeps arrays t := by
  obtain ⟨b,_,_,rfl⟩ := Store.allocate?_eq_some h
  refine ⟨fun _ _ _ h => h,fun a' b' hb' => ⟨b',?_,rfl⟩⟩
  rw [List.getElem?_append_left (List.getElem?_eq_some_iff.mp hb').1]
  exact hb'

/-- Only storing into a variable that holds an array, or making one for it, takes an array away. -/
theorem Writes.keeps {stack : List Value} {i : Instr} {assigned : Option (Slot × Value)}
    (h : Writes s stack i assigned t) (hstore : ∀ g, i = .store (.global g) → ¬ arrays g)
    (halloc : ∀ g element n, i = .alloc (.global g) element n → ¬ arrays g) : s.Keeps arrays t := by
  cases h with
  | nothing => exact .refl arrays s
  | store p v =>
    cases p with
    | slot => exact .refl arrays s
    | global g => exact (Store.Keeps.refl arrays s).update (hstore g rfl) v
  | element hset => exact Store.keeps_setElement? hset
  | @alloc p element n array t hnew =>
    cases p with
    | slot => exact Store.keeps_allocate? hnew
    | global g => exact (Store.keeps_allocate? hnew).update (halloc g element n rfl) array

end stores

end Machine

open Machine

/-- The note is right about a value. Where it was compared with bounds, it still lies within them; if
the array is that of a variable of the outermost scope, the variable is one of the given ones. -/
structure Note.Holds (n : Note) (arrays : String → Prop) (slots : Slot → Value) (s : Store)
    (v : Value) : Prop where
  value : ∀ l, n.value = some l → v = .scalar l
  checked : ∀ p dim, n.checked = some (p,dim) →
    (∀ g, p = .global g → arrays g) ∧ s.inBounds (read slots s p) dim v = true

section holds

variable {arrays : String → Prop} {o : Operations} {slots : Slot → Value} {s t : Store} {i : Instr}
  {ns : List Note} {stack stack' : List Value}

theorem Note.holds_unknown (arrays : String → Prop) (slots : Slot → Value) (s : Store) (v : Value) :
    Note.unknown.Holds arrays slots s v :=
  ⟨nofun,nofun⟩

theorem Note.Holds.keeps {n : Note} {v : Value} (h : n.Holds arrays slots s v)
    (hs : s.Keeps arrays t) : n.Holds arrays slots t v := by
  refine ⟨h.value,fun p dim hc => ?_⟩
  obtain ⟨hp,hin⟩ := h.checked p dim hc
  exact ⟨hp,hs.inBounds hp hin⟩

/-- The notes are right about the whole stack. -/
def Noted (arrays : String → Prop) (slots : Slot → Value) (s : Store) (ns : List Note)
    (stack : List Value) : Prop :=
  List.Forall₂ (fun n v => n.Holds arrays slots s v) ns stack

theorem Noted.keeps (h : Noted arrays slots s ns stack) (hs : s.Keeps arrays t) :
    Noted arrays slots t ns stack :=
  h.imp fun _ _ hn => hn.keeps hs

/-- Values are taken off and one of which nothing is known is put on. -/
theorem Noted.push (h : Noted arrays slots s ns stack) (k : Nat) (v : Value) :
    Noted arrays slots s (Note.unknown :: ns.drop k) (v :: stack.drop k) :=
  .cons (Note.holds_unknown arrays slots s v) (List.forall₂_drop k h)

/-- The notes are right after an instruction if they were before. -/
theorem Noted.exec {assigned : Option (Slot × Value)} {ms ms' : List Mark}
    (h : Noted arrays slots s ns stack) (hmark : i.mark ms = some ms') (hlen : ns.length = ms.length)
    (hi : ∀ g dim, i = .checkBounds (.global g) dim → arrays g)
    (he : Machine.exec o slots s stack i = .go stack' assigned t) :
    Noted arrays (assign slots assigned) t (i.note ns) stack' := by
  by_cases hleaves : i.leavesEmpty = true
  · have hheight : i.height ns.length = 0 := by
      rw [hlen]
      exact (Instr.suits_of_mark hmark).after hleaves
    have hsuits := exec_suits o slots s hmark (h.length_eq.symm.trans hlen)
    rw [he] at hsuits
    have hstack : stack'.length = i.height ns.length := by
      rw [hlen,← Instr.length_of_mark hmark]
      exact hsuits
    rw [List.length_eq_zero_iff.mp (hstack.trans hheight),
      List.length_eq_zero_iff.mp ((i.length_note ns).trans hheight)]
    exact .nil
  cases executes_of he with
  | const l => exact .cons ⟨fun _ hl => Option.some.inj hl ▸ rfl,nofun⟩ h
  | load p => exact h.push 0 _
  | label => exact h
  | @checkBounds p dim v rest hin =>
    cases h with
    | cons hn hrest =>
      refine .cons ⟨hn.value,fun q d hc => ?_⟩ hrest
      obtain ⟨rfl,rfl⟩ := Prod.mk.inj (Option.some.inj hc)
      exact ⟨fun g hg => hi g dim (hg ▸ rfl),hin⟩
  | @loadElement p n _ v => exact h.push n v
  | binary => exact h.push 2 _
  | unary | convert => exact h.push 1 _
  | dup =>
    rw [Instr.mark_dup] at hmark
    cases hmark
  | store | storeElement | alloc | pop | passed => exact absurd rfl hleaves

/-- While a call runs, the notes of what lies below its arguments stay right. -/
theorem Noted.call {target : CallTarget} {args rest : List Value} {returns : Bool}
    (h : Noted arrays slots s ns stack)
    (he : Machine.exec o slots s stack i = .call target args returns rest) :
    ∃ k, i = .call target k returns ∧ args = (stack.take k).reverse ∧
      i.note ns = .replicate returns.toNat Note.unknown ++ ns.drop k ∧ Noted arrays slots s (ns.drop k) rest := by
  cases executes_of he with
  | @call _ n => exact ⟨n,rfl,rfl,rfl,List.forall₂_drop n h⟩

end holds

end StackCompiler
