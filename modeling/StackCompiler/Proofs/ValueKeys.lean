import StackCompiler.Optimize.Reuse
import StackCompiler.Proofs.Patches
import StackCompiler.Proofs.StackShape

/-! What the symbolic stack knows.
In a tidy block a known value on top of the stack was computed by the code right before, and so was
the one below it, down to the first value that is unknown, was compared with the bounds of an array or
waited there during a call. Values that could be kept stay what they are until something they depend
on is written. -/
namespace StackCompiler

open Machine

namespace ValueKey

def code : ValueKey → Code
  | const l => [.const l]
  | place p => [.load p]
  | unary op t x => x.code ++ [.unary op t]
  | convert x => x.code ++ [.convert]
  | binary op t x y => x.code ++ y.code ++ [.binary op t]

def eval (o : Operations) (slots : Slot → Value) (s : Store) : ValueKey → Option Value
  | const l => some (.scalar l)
  | place p => some (read slots s p)
  | unary op t x => (x.eval o slots s).bind (o.unary op t)
  | convert x => (x.eval o slots s).bind o.convert
  | binary op t x y => (x.eval o slots s).bind fun v => (y.eval o slots s).bind (o.binary op t v)

variable {o : Operations} {slots slots' : Slot → Value} {s s' : Store}

theorem eval_eq_of_read {k : ValueKey}
    (h : ∀ p, k.mentions p = true → read slots' s' p = read slots s p) :
    k.eval o slots' s' = k.eval o slots s := by
  induction k with
  | const l => rfl
  | place p => simp [eval,h p (by simp [mentions])]
  | unary op t x ih => simp [eval,ih h]
  | convert x ih => simp [eval,ih h]
  | binary op t x y ihx ihy =>
    have hx := ihx fun p hp => h p (by simp [mentions,hp])
    have hy := ihy fun p hp => h p (by simp [mentions,hp])
    simp [eval,hx,hy]

theorem exec_push {v : Option Value} {w : Value} {stack : List Value} (h : v = some w) :
    Effect.push stack s v = .go (w :: stack) none s := by
  rw [h]
  rfl

/-- The code of a key leaves the value of the key on the stack. -/
theorem steps_code {code : Code} {pc : Nat} {k : ValueKey} (hcode : code.Has pc k.code)
    {v : Value} (hv : k.eval o slots s = some v) (stack : List Value) :
    Steps o code k.code.length ⟨pc,stack,slots⟩ s ⟨pc + k.code.length,v :: stack,slots⟩ s := by
  induction k generalizing pc v stack with
  | const l =>
    obtain rfl := Option.some.inj hv
    exact .go (Code.has_cons.mp hcode).1 rfl (.refl _ _)
  | place p =>
    obtain rfl := Option.some.inj hv
    exact .go (Code.has_cons.mp hcode).1 rfl (.refl _ _)
  | unary op t x ih =>
    obtain ⟨w,hw,hv⟩ := Option.bind_eq_some_iff.mp hv
    obtain ⟨hx,hi⟩ := Code.has_append.mp hcode
    have hlast := Steps.go (s := s) (c := ⟨pc + x.code.length,w :: stack,slots⟩)
      (Code.has_cons.mp hi).1 (exec_push hv) (.refl _ _)
    simpa [ValueKey.code,assign,Nat.add_assoc] using (ih hx hw stack).trans hlast
  | convert x ih =>
    obtain ⟨w,hw,hv⟩ := Option.bind_eq_some_iff.mp hv
    obtain ⟨hx,hi⟩ := Code.has_append.mp hcode
    have hlast := Steps.go (s := s) (c := ⟨pc + x.code.length,w :: stack,slots⟩)
      (Code.has_cons.mp hi).1 (exec_push hv) (.refl _ _)
    simpa [ValueKey.code,assign,Nat.add_assoc] using (ih hx hw stack).trans hlast
  | binary op t x y ihx ihy =>
    obtain ⟨w,hw,hv⟩ := Option.bind_eq_some_iff.mp hv
    obtain ⟨u,hu,hv⟩ := Option.bind_eq_some_iff.mp hv
    obtain ⟨hxy,hi⟩ := Code.has_append.mp hcode
    obtain ⟨hx,hy⟩ := Code.has_append.mp hxy
    rw [List.length_append,← Nat.add_assoc] at hi
    have hlast := Steps.go (s := s)
      (c := ⟨pc + x.code.length + y.code.length,u :: w :: stack,slots⟩)
      (Code.has_cons.mp hi).1 (exec_push hv) (.refl _ _)
    simpa [ValueKey.code,assign,Nat.add_assoc] using ((ihx hx hw stack).trans (ihy hy hu (w :: stack))).trans hlast

theorem code_length_pos (k : ValueKey) : 0 < k.code.length := by
  cases k with
  | const | place => exact Nat.one_pos
  | unary | convert | binary =>
    simp only [code,List.length_append,List.length_singleton]
    omega

end ValueKey

namespace Instr

def written? : Instr → Option Place
  | store p | alloc p _ _ => some p
  | _ => none

/-- What the key stands for is the same after the instruction. -/
structure Spares (i : Instr) (k : ValueKey) : Prop where
  boundary : i.isBoundary = false
  call : i.isCall = false
  written : ∀ p, i.written? = some p → k.mentions p = false

end Instr

namespace Machine

variable {o : Operations} {slots : Slot → Value} {s t : Store} {stack stack' : List Value}
  {assigned : Option (Slot × Value)}

theorem read_of_go {i : Instr} (h : exec o slots s stack i = .go stack' assigned t) {p : Place}
    (hp : i.written? ≠ some p) : read (assign slots assigned) t p = read slots s p := by
  rcases (writes_exec h).read slots p with hsame | rfl | ⟨element,n,rfl⟩
  · exact hsame
  · exact absurd rfl hp
  · exact absurd rfl hp

theorem eval_of_go {i : Instr} {k : ValueKey} (hk : i.Spares k)
    (h : exec o slots s stack i = .go stack' assigned t) :
    k.eval o (assign slots assigned) t = k.eval o slots s := by
  refine ValueKey.eval_eq_of_read fun p hp => read_of_go h fun hw => ?_
  rw [hk.written p hw] at hp
  cases hp

end Machine

namespace Reuse

def scanAt (code : Code) (pc : Nat) : Scan :=
  (code.take pc).zipIdx.foldl (fun s p => s.step p.1 p.2) {}

theorem scanAt_succ {code : Code} {pc : Nat} {i : Instr} (hi : code[pc]? = some i) :
    scanAt code (pc + 1) = (scanAt code pc).step i pc := by
  have hlt := (List.getElem?_eq_some_iff.mp hi).1
  rw [scanAt,List.take_add_one,hi,Option.toList_some,List.zipIdx_append,List.foldl_append]
  simp [scanAt,Nat.min_eq_left (Nat.le_of_lt hlt)]

theorem repeats_eq (code : Code) : repeats code = (scanAt code code.length).repeats := by
  rw [repeats,scanAt,List.take_length]

@[simp] theorem stack_note (s : Scan) (key : Option ValueKey) (start position : Nat) :
    (s.note key start position).stack = s.stack := by
  unfold Scan.note
  cases key with
  | none => rfl
  | some key =>
    simp only
    split <;> rfl

theorem stack_step_boundary {s : Scan} {i : Instr} {n : Nat} (hb : i.isBoundary = true) :
    (s.step i n).stack = [] := by
  cases i with
  | label | branch | branchIf | ret => rfl
  | _ => cases hb

theorem length_step {s : Scan} {i : Instr} {n : Nat} (hb : i.isBoundary = false) :
    (s.step i n).stack.length = i.height s.stack.length := by
  cases i with
  | label | branch | branchIf | ret => cases hb
  | dup => simp [Scan.step,Scan.effect,Instr.height,Instr.pops,Instr.pushes]
  | _ => simp [Scan.step,Scan.push,Scan.drop,Scan.effect,Scan.written,Instr.height,Instr.pops,
      Instr.pushes,Nat.add_comm]

/-- No basic block starts or ends between the two positions. -/
def Unbroken (code : Code) (start n : Nat) : Prop :=
  start < n ∧ ∀ p i, start ≤ p → p < n → code[p]? = some i → i.isBoundary = false

/-- The values of the symbolic stack were made in the block, one after the other. -/
structure Placed (code : Code) (n : Nat) (es : List Entry) : Prop where
  unbroken : ∀ e ∈ es, Unbroken code e.start n
  sorted : es.Pairwise fun above below => below.start ≤ above.start

section placed

variable {code : Code} {n start : Nat} {i : Instr} {es : List Entry}

theorem unbroken_now (hi : code[n]? = some i) (hb : i.isBoundary = false) :
    Unbroken code n (n + 1) := by
  refine ⟨Nat.lt_succ_self n,fun p j hp hlt hj => ?_⟩
  obtain rfl := Nat.le_antisymm hp (Nat.le_of_lt_succ hlt)
  obtain rfl := Option.some.inj (hi.symm.trans hj)
  exact hb

theorem Unbroken.next (h : Unbroken code start n) (hi : code[n]? = some i)
    (hb : i.isBoundary = false) : Unbroken code start (n + 1) := by
  refine ⟨Nat.lt_succ_of_lt h.1,fun p j hp hlt hj => ?_⟩
  rcases Nat.lt_succ_iff_lt_or_eq.mp hlt with hlt | rfl
  · exact h.2 p j hp hlt hj
  · obtain rfl := Option.some.inj (hi.symm.trans hj)
    exact hb

theorem placed_nil : Placed code n [] :=
  ⟨fun _ he => absurd he List.not_mem_nil,List.Pairwise.nil⟩

theorem Placed.drop (h : Placed code n es) (k : Nat) : Placed code n (es.drop k) :=
  ⟨fun e he => h.unbroken e (List.mem_of_mem_drop he),h.sorted.drop⟩

theorem Placed.next (h : Placed code n es) (hi : code[n]? = some i) (hb : i.isBoundary = false) :
    Placed code (n + 1) es :=
  ⟨fun e he => (h.unbroken e he).next hi hb,h.sorted⟩

theorem Placed.push (h : Placed code n es) {e : Entry} (he : Unbroken code e.start n)
    (hle : ∀ b ∈ es, b.start ≤ e.start) : Placed code n (e :: es) :=
  ⟨List.forall_mem_cons.mpr ⟨he,h.unbroken⟩,List.pairwise_cons.mpr ⟨hle,h.sorted⟩⟩

/-- A value that the instruction makes out of nothing that is known. -/
theorem Placed.push_now (h : Placed code (n + 1) es) (hi : code[n]? = some i)
    (hb : i.isBoundary = false) (value : Option ValueKey) : Placed code (n + 1) (⟨value,n⟩ :: es) :=
  h.push (unbroken_now hi hb) fun b he => Nat.le_of_lt_succ (h.unbroken b he).1

/-- The value on top, or the one that is taken for it, is not older than those below. -/
theorem Placed.top (h : Placed code n es) (hi : code[n]? = some i) (hb : i.isBoundary = false)
    (hdefault : Unbroken code start (n + 1)) (hle : ∀ b ∈ es, b.start ≤ start) :
    Unbroken code (es.headD ⟨none,start⟩).start (n + 1) ∧
      ∀ b ∈ es.drop 1, b.start ≤ (es.headD ⟨none,start⟩).start := by
  cases es with
  | nil => exact ⟨hdefault,fun b hm => by cases hm⟩
  | cons e rest =>
    exact ⟨(h.unbroken e List.mem_cons_self).next hi hb,(List.pairwise_cons.mp h.sorted).1⟩

theorem Placed.effect {s : Scan} (h : Placed code n s.stack) (hi : code[n]? = some i)
    (hb : i.isBoundary = false) : Placed code (n + 1) (s.effect i n).stack := by
  simp only [Scan.effect]
  generalize i.pushes = k
  induction k with
  | zero => exact (h.drop _).next hi hb
  | succ k ih => exact ih.push_now hi hb none

theorem Placed.step {s : Scan} (h : Placed code n s.stack) (hi : code[n]? = some i) :
    Placed code (n + 1) (s.step i n).stack := by
  have hle : ∀ b ∈ s.stack, b.start ≤ n := fun b hm => Nat.le_of_lt (h.unbroken b hm).1
  cases i with
  | const | load => exact (h.next hi rfl).push_now hi rfl _
  | unary | convert =>
    obtain ⟨htop,hbelow⟩ := h.top hi rfl (unbroken_now hi rfl) hle
    exact ((h.drop 1).next hi rfl).push htop hbelow
  | binary op t =>
    obtain ⟨hy,hbelow⟩ := h.top hi rfl (unbroken_now hi rfl) hle
    obtain ⟨hx,hbelow⟩ := (h.drop 1).top hi rfl hy hbelow
    simp only [Scan.step,Scan.push,stack_note]
    rw [List.drop_drop] at hbelow
    exact ((h.drop 2).next hi rfl).push hx hbelow
  | label | branch | branchIf | ret => exact placed_nil
  | _ => exact h.effect hi rfl

theorem placed_scanAt (hn : n ≤ code.length) : Placed code n (scanAt code n).stack := by
  induction n with
  | zero => exact placed_nil
  | succ n ih =>
    have hi := List.getElem?_eq_getElem hn
    rw [scanAt_succ hi]
    exact (ih (Nat.le_of_succ_le hn)).step hi

end placed

/-- Values may wait during calls, and there is one between the two positions. -/
def Stale (calls : Prop) (code : Code) (start n : Nat) : Prop :=
  calls ∧ ∃ p i, start ≤ p ∧ p < n ∧ code[p]? = some i ∧ i.isCall = true

theorem Stale.mono {calls : Prop} {code : Code} {start start' n n' : Nat}
    (h : Stale calls code start n) (hstart : start' ≤ start) (hn : n ≤ n') :
    Stale calls code start' n' := by
  obtain ⟨hcalls,p,i,hp,hlt,hi,hc⟩ := h
  exact ⟨hcalls,p,i,Nat.le_trans hstart hp,Nat.lt_of_lt_of_le hlt hn,hi,hc⟩

/-- The symbolic stack before a position. From the top down the values were computed one right
before the other, up to one of which nothing is known, that was compared with bounds or that waited
during a call. -/
inductive Traced (calls : Prop) (code : Code) : Nat → List Entry → List Mark → Prop
  | nil (n : Nat) : Traced calls code n [] []
  | known {n start : Nat} {k : ValueKey} {es : List Entry} {ms : List Mark}
    (hcode : code.Has start k.code) (hend : start + k.code.length = n)
    (hrest : Traced calls code start es ms) :
    Traced calls code n (⟨some k,start⟩ :: es) (.plain :: ms)
  | stop {n : Nat} {e : Entry} {m : Mark} {es : List Entry} {ms : List Mark}
    (he : e.value = none ∨ m = .checked ∨ Stale calls code e.start n) :
    Traced calls code n (e :: es) (m :: ms)

section traced

variable {calls : Prop} {code : Code} {n : Nat} {i : Instr} {es : List Entry} {ms : List Mark}

theorem traced_of_empty (hes : es.length = ms.length) (hms : ms = []) : Traced calls code n es ms := by
  subst hms
  rw [List.length_eq_zero_iff.mp hes]
  exact .nil n

theorem Traced.top {e : Entry} (h : Traced calls code n (e :: es) (.plain :: ms)) {k : ValueKey}
    (hk : e.value = some k) (hstale : ¬ Stale calls code e.start n) :
    code.Has e.start k.code ∧ e.start + k.code.length = n ∧ Traced calls code e.start es ms := by
  cases h with
  | known hcode hend hrest =>
    obtain rfl := Option.some.inj hk
    exact ⟨hcode,hend,hrest⟩
  | stop he =>
    rcases he with he | he | he
    · rw [hk] at he
      cases he
    · cases he
    · exact absurd he hstale

theorem traced_const (h : Traced calls code n es ms) (hi : code[n]? = some i) {k : ValueKey}
    (hk : k.code = [i]) : Traced calls code (n + 1) (⟨some k,n⟩ :: es) (.plain :: ms) := by
  refine .known ?_ ?_ h
  · rw [hk]
    exact Code.has_cons.mpr ⟨hi,Code.has_nil _ _⟩
  · rw [hk]
    rfl

theorem traced_operator {e : Entry} (h : Traced calls code n (e :: es) (.plain :: ms))
    (hi : code[n]? = some i) {f : ValueKey → ValueKey} (hf : ∀ k, (f k).code = k.code ++ [i]) :
    Traced calls code (n + 1) (⟨e.value.map f,e.start⟩ :: es) (.plain :: ms) := by
  by_cases hstale : Stale calls code e.start n
  · exact .stop (.inr (.inr (hstale.mono (Nat.le_refl _) (Nat.le_succ n))))
  · cases hk : e.value with
    | none => exact .stop (.inl rfl)
    | some k =>
      obtain ⟨hcode,hend,hrest⟩ := h.top hk hstale
      refine .known ?_ ?_ hrest
      · rw [hf,Code.has_append,hend]
        exact ⟨hcode,Code.has_cons.mpr ⟨hi,Code.has_nil _ _⟩⟩
      · rw [hf,List.length_append,← Nat.add_assoc,hend]
        rfl

def Entry.combine (op : BinaryOp) (t : BaseType) (x y : Entry) : Option ValueKey :=
  x.value.bind fun kx => y.value.map fun ky => .binary op t kx ky

/-- An operator on two values; if both are known, the code of one stands right before the code of the
other. -/
theorem traced_binary {op : BinaryOp} {t : BaseType} {x y : Entry}
    (h : Traced calls code n (y :: x :: es) (.plain :: .plain :: ms)) (hle : x.start ≤ y.start)
    (hi : code[n]? = some (.binary op t)) :
    Traced calls code (n + 1) (⟨Entry.combine op t x y,x.start⟩ :: es) (.plain :: ms) := by
  by_cases hstale : Stale calls code x.start n
  · exact .stop (.inr (.inr (hstale.mono (Nat.le_refl _) (Nat.le_succ n))))
  cases hx : x.value with
  | none => exact .stop (.inl (by simp [Entry.combine,hx]))
  | some kx =>
    cases hy : y.value with
    | none => exact .stop (.inl (by simp [Entry.combine,hx,hy]))
    | some ky =>
      obtain ⟨hcodey,hendy,hrest⟩ := h.top hy fun hy => hstale (hy.mono hle (Nat.le_refl n))
      have hlt : y.start ≤ n := by omega
      obtain ⟨hcodex,hendx,hrest⟩ := hrest.top hx fun hx => hstale (hx.mono (Nat.le_refl _) hlt)
      rw [show Entry.combine op t x y = some (.binary op t kx ky) by simp [Entry.combine,hx,hy]]
      have hend : x.start + (kx.code ++ ky.code).length = n := by
        rw [List.length_append]
        omega
      refine .known ?_ ?_ hrest
      · rw [ValueKey.code,Code.has_append,hend,Code.has_append,hendx]
        exact ⟨⟨hcodex,hcodey⟩,Code.has_cons.mpr ⟨hi,Code.has_nil _ _⟩⟩
      · rw [ValueKey.code,List.length_append,← Nat.add_assoc,hend]
        rfl

theorem stack_step_binary {s : Scan} {x y : Entry} {rest : List Entry} (h : s.stack = y :: x :: rest)
    (op : BinaryOp) (t : BaseType) :
    (s.step (.binary op t) n).stack = ⟨Entry.combine op t x y,x.start⟩ :: rest := by
  simp [Scan.step,Scan.top,Scan.drop,Scan.push,h,Entry.combine]

theorem traced_call (hcalls : calls) (hi : code[n]? = some i) (hc : i.isCall = true) (hlen : es.length = ms.length)
    (hes : Placed code n es) : Traced calls code (n + 1) es ms := by
  cases es with
  | nil => exact traced_of_empty hlen (List.length_eq_zero_iff.mp hlen.symm)
  | cons e es =>
    obtain ⟨m,ms,rfl⟩ := List.exists_cons_of_length_eq_add_one hlen.symm
    have hlt := (hes.unbroken e List.mem_cons_self).1
    exact .stop (.inr (.inr ⟨hcalls,n,i,Nat.le_of_lt hlt,Nat.lt_succ_self n,hi,hc⟩))

theorem Traced.step {s : Scan} (h : Traced calls code n s.stack ms) (hlen : s.stack.length = ms.length)
    (hs : Placed code n s.stack) (hi : code[n]? = some i) (hb : i.isBoundary = false)
    (ht : i.Tidy calls ms) : Traced calls code (n + 1) (s.step i n).stack (i.remark ms) := by
  have hlength : (s.step i n).stack.length = (i.remark ms).length := by
    rw [length_step hb,Instr.length_remark,hlen]
  cases i with
  | const | load => exact traced_const h hi rfl
  | unary | convert =>
    rcases ms with _ | ⟨m,ms⟩
    · exact .stop (.inl (by simp [Scan.top,List.length_eq_zero_iff.mp hlen]))
    · obtain rfl := ht.plain rfl m List.mem_cons_self
      obtain ⟨e,es,hes⟩ := List.exists_cons_of_length_eq_add_one hlen
      rw [hes] at h
      simp only [Scan.step,Scan.push,Scan.drop,Scan.top,hes]
      exact traced_operator h hi fun _ => rfl
  | binary op t =>
    rcases ms with _ | ⟨m,_ | ⟨m',ms⟩⟩
    · exact .stop (.inl (by simp [Scan.top,Scan.drop,List.length_eq_zero_iff.mp hlen]))
    · obtain ⟨e,hes⟩ := List.length_eq_one_iff.mp hlen
      exact .stop (.inl (by simp [Scan.top,Scan.drop,hes]))
    · obtain rfl := ht.plain rfl m List.mem_cons_self
      obtain rfl := ht.plain rfl m' (List.mem_cons_of_mem _ List.mem_cons_self)
      obtain ⟨y,rest,hes⟩ := List.exists_cons_of_length_eq_add_one hlen
      rw [hes] at h hs hlen
      obtain ⟨x,es,rfl⟩ := List.exists_cons_of_length_eq_add_one (Nat.succ.inj hlen)
      rw [stack_step_binary hes]
      exact traced_binary h ((List.pairwise_cons.mp hs.sorted).1 x List.mem_cons_self) hi
  | checkBounds =>
    cases ms with
    | nil => exact traced_of_empty hlength rfl
    | cons m ms =>
      obtain ⟨e,es,hes⟩ := List.exists_cons_of_length_eq_add_one hlen
      simp only [Scan.step,Scan.effect,Instr.pushes,Instr.pops,hes]
      exact .stop (.inr (.inl rfl))
  | loadElement | dup => exact .stop (.inl rfl)
  | call target k returns =>
    cases returns with
    | true => exact .stop (.inl rfl)
    | false =>
      by_cases hcalls : calls
      · exact traced_call hcalls hi rfl hlength (hs.drop k)
      · exact traced_of_empty hlength (ht.after rfl fun h => hcalls h.1)
  | store | pop | storeElement | alloc =>
    exact traced_of_empty hlength (ht.after rfl fun h => Bool.noConfusion h.2)
  | label | branch | branchIf | ret => cases hb

/-- The scan of a tidy block keeps track of how the values on the stack were computed. -/
theorem traced_scanAt (h : Code.Block calls code n ms) :
    (scanAt code n).stack.length = ms.length ∧ Traced calls code n (scanAt code n).stack ms := by
  induction h with
  | entry => exact ⟨rfl,.nil 0⟩
  | boundary hi hb =>
    rw [scanAt_succ hi,stack_step_boundary hb]
    exact ⟨rfl,.nil _⟩
  | next h hi hb ht ih =>
    rw [scanAt_succ hi]
    refine ⟨by rw [length_step hb,Instr.length_remark,ih.1],?_⟩
    exact ih.2.step ih.1 (placed_scanAt (Nat.le_of_lt (List.getElem?_eq_some_iff.mp hi).1)) hi hb ht

/-- In a tidy block the code of the value on top stands right before. -/
theorem has_of_block (h : Code.Block calls code n (.plain :: ms)) {k : ValueKey} {start : Nat}
    (htop : (scanAt code n).stack.head? = some ⟨some k,start⟩) (hstale : ¬ Stale calls code start n) :
    code.Has start k.code ∧ start + k.code.length = n := by
  obtain ⟨es,hes⟩ := List.head?_eq_some_iff.mp htop
  have htraced := (traced_scanAt h).2
  rw [hes] at htraced
  obtain ⟨hcode,hend,_⟩ := htraced.top rfl hstale
  exact ⟨hcode,hend⟩

end traced

section available

variable {s : Scan} {i : Instr} {n f : Nat} {k : ValueKey}

theorem available_note {key : Option ValueKey} {start : Nat}
    (h : (k,f) ∈ (s.note key start n).available) :
    (k,f) ∈ s.available ∨ f = n ∧ key = some k := by
  unfold Scan.note at h
  cases key with
  | none => exact .inl h
  | some key =>
    simp only at h
    split at h
    · exact .inl h
    · rcases List.mem_append.mp h with h | h
      · exact .inl h
      · cases List.mem_singleton.mp h
        exact .inr ⟨rfl,rfl⟩

theorem repeats_note {key : Option ValueKey} {start : Nat} {r : Repeat}
    (h : r ∈ (s.note key start n).repeats) :
    r ∈ s.repeats ∨ ∃ k, key = some k ∧ (k,r.first) ∈ s.available ∧ r.start = start ∧ r.stop = n := by
  unfold Scan.note at h
  cases key with
  | none => exact .inl h
  | some key =>
    simp only at h
    split at h
    · next first hfirst =>
      rcases List.mem_append.mp h with h | h
      · exact .inl h
      · cases List.mem_singleton.mp h
        obtain ⟨l₁,l₂,hl,_⟩ := List.lookup_eq_some_iff.mp hfirst
        exact .inr ⟨key,rfl,hl ▸ List.mem_append_right _ List.mem_cons_self,rfl,rfl⟩
    · exact .inl h

/-- A value that could be kept after an instruction could be kept before and is still what it was, or
it is the result of the instruction. -/
theorem available_step (h : (k,f) ∈ (s.step i n).available) :
    (k,f) ∈ s.available ∧ i.Spares k ∨
      f = n ∧ (∃ op t, i = .binary op t) ∧ ∃ start, (s.step i n).stack.head? = some ⟨some k,start⟩ := by
  cases i with
  | binary op t =>
    rcases available_note h with h | ⟨rfl,hk⟩
    · exact .inl ⟨h,rfl,rfl,fun _ hp => by cases hp⟩
    · refine .inr ⟨rfl,⟨op,t,rfl⟩,((s.drop 1).top (s.top f).start).start,?_⟩
      simp only [Scan.step,Scan.push,List.head?_cons,hk]
  | store p =>
    obtain ⟨h,hp⟩ := List.mem_filter.mp h
    refine .inl ⟨h,rfl,rfl,fun q hq => ?_⟩
    cases hq
    simpa using hp
  | alloc p =>
    obtain ⟨h,hp⟩ := List.mem_filter.mp h
    refine .inl ⟨h,rfl,rfl,fun q hq => ?_⟩
    cases hq
    simpa using hp
  | call | label | branch | branchIf | ret => cases h
  | _ => exact .inl ⟨h,rfl,rfl,fun _ hp => by cases hp⟩

theorem repeats_step {r : Repeat} (h : r ∈ (s.step i n).repeats) : r ∈ s.repeats ∨
    ∃ k, (k,r.first) ∈ s.available ∧ r.stop = n ∧ (∃ op t, i = .binary op t) ∧
      (s.step i n).stack.head? = some ⟨some k,r.start⟩ := by
  cases i with
  | binary op t =>
    rcases repeats_note h with h | ⟨k,hk,hmem,hstart,hstop⟩
    · exact .inl h
    · refine .inr ⟨k,hmem,hstop,⟨op,t,rfl⟩,?_⟩
      simp only [Scan.step,Scan.push,List.head?_cons,hk,hstart]
  | _ => exact .inl h

variable {code : Code}

theorem available_scanAt (hn : n ≤ code.length) (h : (k,f) ∈ (scanAt code n).available) :
    f < n ∧ ∃ op t, code[f]? = some (.binary op t) := by
  induction n with
  | zero => cases h
  | succ n ih =>
    have hi := List.getElem?_eq_getElem hn
    rw [scanAt_succ hi] at h
    rcases available_step h with ⟨h,_⟩ | ⟨rfl,⟨op,t,hop⟩,_⟩
    · obtain ⟨hlt,hbinary⟩ := ih (Nat.le_of_succ_le hn) h
      exact ⟨Nat.lt_succ_of_lt hlt,hbinary⟩
    · exact ⟨Nat.lt_succ_self f,op,t,hop ▸ hi⟩

/-- A value that could be kept could be kept ever since it was computed. -/
theorem available_earlier {m : Nat} (hn : n ≤ code.length) (h : (k,f) ∈ (scanAt code n).available)
    (hm : m ≤ n) (hf : f < m) : (k,f) ∈ (scanAt code m).available := by
  induction n with
  | zero =>
    obtain rfl := Nat.le_zero.mp hm
    exact h
  | succ n ih =>
    rcases Nat.lt_or_eq_of_le hm with hlt | rfl
    · have hi := List.getElem?_eq_getElem hn
      rw [scanAt_succ hi] at h
      rcases available_step h with ⟨h,_⟩ | ⟨rfl,_⟩
      · exact ih (Nat.le_of_succ_le hn) h (Nat.le_of_lt_succ hlt)
      · exact absurd hf (Nat.not_lt.mpr (Nat.le_of_lt_succ hlt))
    · exact h

/-- Nothing that a value depends on is written as long as it could be kept. -/
theorem spares_of_available {p : Nat} (hn : n ≤ code.length)
    (h : (k,f) ∈ (scanAt code n).available) (hf : f < p) (hp : p < n) (hi : code[p]? = some i) :
    i.Spares k := by
  have hnext := available_earlier hn h hp (Nat.lt_succ_of_lt hf)
  rw [scanAt_succ hi] at hnext
  rcases available_step hnext with ⟨_,hspares⟩ | ⟨rfl,_⟩
  · exact hspares
  · exact absurd hf (Nat.lt_irrefl f)

structure Repeat.Repeats (code : Code) (r : Repeat) (k : ValueKey) : Prop where
  length : r.stop < code.length
  available : (k,r.first) ∈ (scanAt code r.stop).available
  top : (scanAt code (r.stop + 1)).stack.head? = some ⟨some k,r.start⟩
  binary : ∃ op t, code[r.stop]? = some (.binary op t)

theorem repeats_scanAt (hn : n ≤ code.length) {r : Repeat} (h : r ∈ (scanAt code n).repeats) :
    ∃ k, Repeat.Repeats code r k := by
  induction n with
  | zero => cases h
  | succ n ih =>
    have hi := List.getElem?_eq_getElem hn
    rw [scanAt_succ hi] at h
    rcases repeats_step h with h | ⟨k,hmem,hstop,⟨op,t,hop⟩,htop⟩
    · exact ih (Nat.le_of_succ_le hn) h
    · subst hstop
      rw [← scanAt_succ hi] at htop
      exact ⟨k,hn,hmem,htop,op,t,hop ▸ hi⟩

namespace Repeat.Repeats

variable {r : Repeat}

theorem first_lt (h : Repeats code r k) : r.first < r.stop :=
  (available_scanAt (Nat.le_of_lt h.length) h.available).1

theorem unbroken (h : Repeats code r k) : Unbroken code r.start (r.stop + 1) := by
  have hplaced : Placed code (r.stop + 1) _ := placed_scanAt h.length
  exact hplaced.unbroken ⟨some k,r.start⟩ (List.mem_of_mem_head? h.top)

theorem start_le (h : Repeats code r k) : r.start ≤ r.stop := Nat.le_of_lt_succ h.unbroken.1

/-- Nothing is called between the first evaluation and the repeat. -/
theorem isCall_eq_false (h : Repeats code r k) (hfirst : r.first < r.start) {p : Nat}
    (hp : r.start ≤ p) (hle : p ≤ r.stop) (hi : code[p]? = some i) : i.isCall = false := by
  rcases Nat.lt_or_eq_of_le hle with hlt | rfl
  · exact (spares_of_available (Nat.le_of_lt h.length) h.available (Nat.lt_of_lt_of_le hfirst hp) hlt
      hi).call
  · obtain ⟨op,t,hop⟩ := h.binary
    obtain rfl := Option.some.inj (hi.symm.trans hop)
    rfl

/-- In a tidy block the stretch of a repeat is the code of its value. -/
theorem has {calls : Prop} (h : Repeats code r k) (hfirst : r.first < r.start) {ms : List Mark}
    (hblock : Code.Block calls code (r.stop + 1) (.plain :: ms)) :
    code.Has r.start k.code ∧ r.start + k.code.length = r.stop + 1 := by
  refine has_of_block hblock h.top ?_
  rintro ⟨_,p,i,hp,hlt,hi,hc⟩
  rw [h.isCall_eq_false hfirst hp (Nat.le_of_lt_succ hlt) hi] at hc
  cases hc

end Repeat.Repeats

end available

end Reuse

end StackCompiler
