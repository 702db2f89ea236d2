import StackCompiler.Proofs.Visibility

/-! Names that a scope shares with those around it.
While a scope is open, only its own table can gain or lose names for it: the scopes around it are out
of reach, except that the outermost may gain new ones and that references move the lines of symbols.
So a shared name means the same symbol for as long as its scope is open and declares no such name
itself. -/
namespace StackCompiler

namespace SymbolTable

theorem lookup_append (t : SymbolTable) (symbol : Symbol) (name : String) :
    ({ t with symbols := t.symbols ++ [symbol] } : SymbolTable).lookup name =
      (t.lookup name).or (if symbol.key = t.normalize name then some symbol else none) := by
  have hsingle : [symbol].find? (·.key == t.normalize name) =
      if symbol.key = t.normalize name then some symbol else none := by
    by_cases hkey : symbol.key = t.normalize name <;> simp [hkey]
  change (t.symbols ++ [symbol]).find? _ = _
  rw [List.find?_append,← hsingle]
  rfl

theorem lookup_remove_none {t : SymbolTable} {name : String} (h : t.lookup name = none)
    (other : String) : (t.remove other).lookup name = none := by
  refine List.find?_eq_none.mpr fun symbol hsymbol => ?_
  exact List.find?_eq_none.mp h symbol (List.mem_of_mem_eraseP hsymbol)

theorem lookup_remove {t : SymbolTable} {name other : String}
    (h : t.normalize other ≠ t.normalize name) : (t.remove other).lookup name = t.lookup name := by
  change (t.symbols.eraseP _).find? _ = t.symbols.find? _
  induction t.symbols with
  | nil => rfl
  | cons symbol rest ih =>
    rw [List.eraseP_cons]
    cases hother : symbol.key == t.normalize other with
    | false =>
      rw [cond_false,List.find?_cons,List.find?_cons,ih]
      rfl
    | true =>
      have hkey : (symbol.key == t.normalize name) = false := by
        rw [beq_iff_eq.mp hother]
        exact beq_eq_false_iff_ne.mpr h
      rw [cond_true,List.find?_cons,hkey]
      rfl

end SymbolTable

deriving instance DecidableEq for SymbolTable, Scope, ScopeStack

namespace ScopeStack

/-- Open scopes have different numbers, and all of them were given out before. -/
structure Numbered (s : ScopeStack) : Prop where
  distinct : (s.scopes.map Scope.id).Nodup
  below : ∀ n ∈ s.scopes.map Scope.id, n < s.nextId

/-- The number was given to a scope that is open no longer. -/
structure Gone (s : ScopeStack) (id : Nat) : Prop where
  absent : id ∉ s.scopes.map Scope.id
  below : id < s.nextId

section numbers

variable {s s' : ScopeStack} {operation : Operation} {reply : Reply} {id : Nat}

theorem ids_edited (hinner : List.Forall₂ Scope.Edited s.inner s'.inner)
    (houter : s.outermost.Edited s'.outermost) : s'.scopes.map Scope.id = s.scopes.map Scope.id := by
  have hall : List.Forall₂ Scope.Edited s.scopes s'.scopes :=
    List.rel_append hinner (.cons houter .nil)
  generalize s.scopes = xs, s'.scopes = ys at hall
  induction hall with
  | nil => rfl
  | cons hedited _ ih => rw [List.map_cons,List.map_cons,hedited.id,ih]

theorem Numbered.moves (h : s.Numbered) (hm : s.Moves operation reply s') : s'.Numbered := by
  cases hm with
  | push =>
    refine ⟨List.nodup_cons.mpr ⟨fun hmem => Nat.lt_irrefl _ (h.below _ hmem),h.distinct⟩,?_⟩
    exact List.forall_mem_cons.mpr ⟨Nat.lt_succ_self _,fun n hn => Nat.lt_succ_of_lt (h.below n hn)⟩
  | @pop scope rest hinner =>
    have hscopes : s.scopes.map Scope.id = scope.id :: (rest ++ [s.outermost]).map Scope.id := by
      rw [scopes,hinner]
      rfl
    obtain ⟨hdistinct,hbelow⟩ := h
    rw [hscopes] at hdistinct hbelow
    exact ⟨(List.nodup_cons.mp hdistinct).2,fun n hn => hbelow n (List.mem_cons_of_mem _ hn)⟩
  | edit _ _ _ hnext hinner houter =>
    have hids := ids_edited hinner houter
    exact ⟨hids ▸ h.distinct,by rw [hids,hnext]; exact h.below⟩

theorem numbered_after (name : String) (caseSensitive : Bool) (scoping : Scoping)
    (operations : List Operation) : (after name caseSensitive scoping operations).Numbered :=
  after_of_moves ⟨List.nodup_singleton 0,by simp [start,scopes]⟩ (fun _ _ _ _ h hm => h.moves hm)
    operations

theorem Gone.moves (h : s.Gone id) (hm : s.Moves operation reply s') : s'.Gone id := by
  cases hm with
  | push =>
    refine ⟨fun hmem => ?_,Nat.lt_succ_of_lt h.below⟩
    rcases List.mem_cons.mp hmem with rfl | hmem
    · exact Nat.lt_irrefl _ h.below
    · exact h.absent hmem
  | @pop scope rest hinner =>
    refine ⟨fun hmem => h.absent ?_,h.below⟩
    rw [scopes,hinner]
    exact List.mem_cons_of_mem _ hmem
  | edit _ _ _ hnext hinner houter =>
    exact ⟨by rw [ids_edited hinner houter]; exact h.absent,by rw [hnext]; exact h.below⟩

theorem Numbered.foldl (h : s.Numbered) (operations : List Operation) :
    (operations.foldl perform s).Numbered :=
  foldl_of_moves h (fun _ _ _ _ h hm => h.moves hm) operations

theorem Gone.foldl (h : s.Gone id) (operations : List Operation) :
    (operations.foldl perform s).Gone id :=
  foldl_of_moves (P := fun s => s.Gone id) h (fun _ _ _ _ h hm => h.moves hm) operations

theorem Gone.not_top (h : s.Gone id) : s.top.id ≠ id := by
  rintro rfl
  refine h.absent (List.mem_map_of_mem ?_)
  unfold top scopes
  cases s.inner <;> simp

end numbers

/-- The scope is one of the inner ones that are open, and these are around it, outwards. -/
def Stands (s : ScopeStack) (scope : Scope) (around : List Scope) : Prop :=
  ∃ above rest, s.inner = above ++ scope :: rest ∧ around = rest ++ [s.outermost]

/-- What an operation does to an open scope and to those around it. An operation on a scope further
in leaves them as they are, and so does one that fails. -/
inductive Alters (s : ScopeStack) (scope : Scope) (around : List Scope) :
    Operation → Scope → List Scope → Prop where
  | refer {operation : Operation} {scope' : Scope} {around' : List Scope}
      (hscope : scope'.forget = scope.forget)
      (haround : around'.map Scope.forget = around.map Scope.forget) :
      Alters s scope around operation scope' around'
  | declare {symbol : Symbol} (htop : s.top = scope) (hok : (s.declare symbol).1.isOk = true) :
      Alters s scope around (.declare symbol) { scope with
        table := { scope.table with symbols := scope.table.symbols ++ [scope.table.keyed symbol] } }
        around
  | remove {name : String} (htop : s.top = scope) :
      Alters s scope around (.remove name) { scope with table := scope.table.remove name } around
  | share {name : String} {line : Line} (key : String) :
      Alters s scope around (.share name line) (scope.share key) around
  | extend {symbol : Symbol} {rest : List Scope} {outer : Scope} (new : Symbol)
      (haround : around = rest ++ [outer]) :
      Alters s scope around (.declareGlobal symbol) scope (rest ++ [{ outer with
        table := { outer.table with symbols := outer.table.symbols ++ [new] } }])

section step

variable {s s' : ScopeStack} {scope scope' : Scope} {around around' : List Scope}
  {operation : Operation}

theorem Stands.scopes_eq (h : s.Stands scope around) : ∃ above, s.scopes = above ++ scope :: around := by
  obtain ⟨above,rest,hinner,rfl⟩ := h
  exact ⟨above,by rw [scopes,hinner,List.append_assoc]; rfl⟩

/-- An open scope that has the number of the innermost is the innermost. -/
theorem Stands.innermost (h : s.Stands scope around) (hs : s.Numbered)
    (htop : s.top.id = scope.id) :
    ∃ rest, s.inner = scope :: rest ∧ around = rest ++ [s.outermost] := by
  obtain ⟨above,rest,hinner,rfl⟩ := h
  cases above with
  | nil => exact ⟨rest,hinner,rfl⟩
  | cons first above =>
    have hdistinct := hs.distinct
    rw [scopes,hinner] at hdistinct
    rw [top,hinner] at htop
    refine absurd hdistinct fun hnodup => (List.nodup_cons.mp hnodup).1 ?_
    rw [show first.id = scope.id from htop]
    exact List.mem_map_of_mem (by simp)

/-- A change of the innermost scope, which is one further in or the scope itself. -/
theorem Stands.exists_updateTop (h : s.Stands scope around) {f : Scope → Scope}
    (hid : (f scope).id = scope.id)
    (hself : s.top = scope → s.Alters scope around operation (f scope) around) :
    ∃ scope' around', (s.updateTop f).Stands scope' around' ∧ scope'.id = scope.id ∧
      s.Alters scope around operation scope' around' := by
  obtain ⟨above,rest,hinner,rfl⟩ := h
  unfold updateTop
  cases above with
  | nil =>
    rw [List.nil_append] at hinner
    rw [hinner]
    exact ⟨f scope,_,⟨[],rest,rfl,rfl⟩,hid,hself (by rw [top,hinner]; rfl)⟩
  | cons first above =>
    rw [List.cons_append] at hinner
    rw [hinner]
    exact ⟨scope,_,⟨f first :: above,rest,rfl,rfl⟩,rfl,.refer rfl rfl⟩

theorem Stands.exists_touch (h : s.Stands scope around) (found : Symbol × Nat) (line : Line) :
    ∃ scope' around', (s.touch found line).Stands scope' around' ∧ scope'.id = scope.id ∧
      s.Alters scope around (.touch found line) scope' around' := by
  obtain ⟨above,rest,hinner,rfl⟩ := h
  have hforget := forget_touch s found line
  have hmap : (s.touch found line).inner.map Scope.forget =
      above.map Scope.forget ++ scope.forget :: rest.map Scope.forget := by
    rw [← List.map_cons,← List.map_append,← hinner]
    exact congrArg ScopeStack.inner hforget
  have houter : (s.touch found line).outermost.forget = s.outermost.forget :=
    congrArg ScopeStack.outermost hforget
  obtain ⟨above',tail,hsplit,habove,htail⟩ := List.map_eq_append_iff.mp hmap
  obtain ⟨scope',rest',rfl,hscope,hrest⟩ := List.map_eq_cons_iff.mp htail
  have hids : (above' ++ scope' :: rest').map Scope.id = (above ++ scope :: rest).map Scope.id := by
    have houtline := congrArg (fun o => o.1.map Prod.fst) (outline_touch s found line)
    simpa [outline,hsplit,hinner,Function.comp_def] using houtline
  have hlength : (above'.map Scope.id).length = (above.map Scope.id).length := by
    simpa using congrArg List.length habove
  rw [List.map_append,List.map_append] at hids
  refine ⟨scope',_,⟨above',rest',hsplit,rfl⟩,(List.cons.inj (List.append_inj hids hlength).2).1,
    .refer hscope ?_⟩
  simp [hrest,houter]

theorem exists_of_declareGlobal {symbol declared : Symbol}
    (h : s.declareGlobal symbol = (.ok declared,s')) :
    ∃ new, s' = { s with outermost := { s.outermost with
      table := { s.outermost.table with symbols := s.outermost.table.symbols ++ [new] } } } := by
  unfold declareGlobal SymbolTable.declare at h
  cases hl : s.global.lookup symbol.name with
  | some => rw [hl] at h; cases h
  | none =>
    rw [hl] at h
    cases h
    exact ⟨_,rfl⟩

/-- A scope that is open stays open, or it was the innermost and is closed. -/
theorem Stands.perform (h : s.Stands scope around) (operation : Operation) :
    (∃ scope' around', (s.perform operation).Stands scope' around' ∧ scope'.id = scope.id ∧
      s.Alters scope around operation scope' around') ∨
    (s.perform operation).scopes = around ∧ (s.perform operation).nextId = s.nextId := by
  unfold ScopeStack.perform
  rcases ha : s.attempt operation with ⟨d | reply,s'⟩
  · rw [s.cautious_attempt operation d s' ha]
    exact .inl ⟨scope,around,h,rfl,.refer rfl rfl⟩
  · cases operation with
    | push name discipline =>
      obtain ⟨above,rest,hinner,rfl⟩ := h
      cases moves_of_attempt ha with
      | push =>
        exact .inl ⟨scope,_,⟨_ :: above,rest,congrArg (_ :: ·) hinner,rfl⟩,rfl,.refer rfl rfl⟩
      | edit hpush => exact absurd rfl (hpush name discipline)
    | pop handle =>
      obtain ⟨above,rest,hinner,rfl⟩ := h
      cases moves_of_attempt ha with
      | pop htop =>
        rw [hinner] at htop
        cases above with
        | nil =>
          obtain ⟨rfl,rfl⟩ := List.cons.inj htop
          exact .inr ⟨rfl,rfl⟩
        | cons first above =>
          obtain ⟨rfl,rfl⟩ := List.cons.inj htop
          exact .inl ⟨scope,_,⟨above,rest,rfl,rfl⟩,rfl,.refer rfl rfl⟩
      | edit _ hpop => exact absurd rfl (hpop handle)
    | declare symbol =>
      obtain ⟨declared,hd,_⟩ := exists_of_map (x := s.declare symbol) ha
      have hok : (s.declare symbol).1.isOk = true := by rw [hd]; rfl
      obtain ⟨rfl,_,rfl⟩ := declare_eq_ok hd
      refine .inl (h.exists_updateTop rfl fun htop => ?_)
      rw [current,htop]
      exact .declare htop hok
    | declareGlobal symbol =>
      obtain ⟨declared,hd,_⟩ := exists_of_map (x := s.declareGlobal symbol) ha
      obtain ⟨new,rfl⟩ := exists_of_declareGlobal hd
      obtain ⟨above,rest,hinner,rfl⟩ := h
      exact .inl ⟨scope,_,⟨above,rest,hinner,rfl⟩,rfl,.extend new rfl⟩
    | remove name =>
      cases ha
      exact .inl (h.exists_updateTop rfl .remove)
    | share name line =>
      obtain ⟨found,hd,_⟩ := exists_of_map ha
      obtain ⟨first,rest,_,hinner,_,rfl⟩ := share_eq_ok hd
      have htop : s.updateTop (·.share (s.normalize name)) =
          { s with inner := first.share (s.normalize name) :: rest } := by
        rw [updateTop,hinner]
      rw [← htop]
      exact .inl (h.exists_updateTop (scope.edited_share _).id fun _ => .share _)
    | touch found line =>
      cases ha
      exact .inl (h.exists_touch found line)

end step

/-- Every one of the operations, done one after another, is allowed where it is done. -/
def Always (allowed : ScopeStack → Operation → Prop) (s : ScopeStack) : List Operation → Prop
  | [] => True
  | operation :: rest => allowed s operation ∧ Always allowed (s.perform operation) rest

def Declares (s : ScopeStack) (id : Nat) (key : String) : Operation → Prop
  | .declare symbol =>
    s.top.id = id ∧ s.current.normalize symbol.name = key ∧ (s.declare symbol).1.isOk = true
  | _ => False

def Removes (s : ScopeStack) (id : Nat) (key : String) : Operation → Prop
  | .remove name => s.top.id = id ∧ s.current.normalize name = key
  | _ => False

instance (s : ScopeStack) (id : Nat) (key : String) : DecidablePred (s.Declares id key)
  | .declare symbol => inferInstanceAs (Decidable (s.top.id = id ∧
      s.current.normalize symbol.name = key ∧ (s.declare symbol).1.isOk = true))
  | .push .. | .pop .. | .declareGlobal .. | .remove .. | .share .. | .touch .. =>
    inferInstanceAs (Decidable False)

instance decidableAlways (allowed : ScopeStack → Operation → Prop)
    [∀ s, DecidablePred (allowed s)] : ∀ s, DecidablePred (Always allowed s)
  | _, [] => inferInstanceAs (Decidable True)
  | s, operation :: rest =>
    have := decidableAlways allowed (s.perform operation) rest
    inferInstanceAs (Decidable (allowed s operation ∧ Always allowed (s.perform operation) rest))

/-- The scope shares the key without having declared it, and around it the key means the symbol. -/
structure Shares (caseSensitive : Bool) (key : String) (symbol : Symbol) (depth : Nat)
    (scope : Scope) (around : List Scope) : Prop where
  rule : scope.table.caseSensitive = caseSensitive
  shared : key ∈ scope.imported
  free : scope.table.lookup key = none
  found : find key (around.map Scope.forget) = some (symbol.forget,depth)

structure Owned (caseSensitive : Bool) (key : String) (symbol : Symbol) (depth : Nat)
    (scope : Scope) (around : List Scope) : Prop where
  rule : scope.table.caseSensitive = caseSensitive
  depth : around.length = depth
  found : scope.table.forget.lookup key = some symbol.forget

section kept

variable {s : ScopeStack} {scope scope' : Scope} {around around' : List Scope}
  {operation : Operation} {caseSensitive : Bool} {key : String} {symbol : Symbol} {depth : Nat}

theorem find_extend {rest : List Scope} {outer : Scope} {found : Symbol × Nat}
    (h : find key (rest ++ [outer]) = some found) (new : Symbol) :
    find key (rest ++ [{ outer with
      table := { outer.table with symbols := outer.table.symbols ++ [new] } }]) = some found := by
  induction rest with
  | nil =>
    rw [List.nil_append,find] at h ⊢
    rw [SymbolTable.lookup_append]
    cases hl : outer.table.lookup key with
    | some x =>
      rw [hl] at h
      exact h
    | none =>
      rw [hl] at h
      simp [find] at h
  | cons scope rest ih =>
    rw [List.cons_append,find] at h ⊢
    cases hl : scope.table.lookup key with
    | some x =>
      rw [hl] at h
      simpa using h
    | none =>
      rw [hl] at h
      dsimp only at h ⊢
      split at h
      · cases h
      · next hhides =>
        rw [if_neg hhides]
        exact ih h

theorem Alters.rule (h : s.Alters scope around operation scope' around') :
    scope'.table.caseSensitive = scope.table.caseSensitive := by
  cases h with
  | refer hscope => exact congrArg (fun x => x.table.caseSensitive) hscope
  | share key => rw [Scope.share]; split <;> rfl
  | _ => rfl

theorem Alters.imported (h : s.Alters scope around operation scope' around') :
    scope.imported ⊆ scope'.imported := by
  cases h with
  | refer hscope =>
    have himported : scope'.forget.imported = scope.forget.imported := congrArg Scope.imported hscope
    rw [show scope'.imported = scope.imported from himported]
    exact List.Subset.refl _
  | share key =>
    rw [Scope.share]
    split
    · exact List.Subset.refl _
    · exact List.subset_cons_self _ _
  | _ => exact List.Subset.refl _

theorem Alters.length (h : s.Alters scope around operation scope' around') :
    around'.length = around.length := by
  cases h with
  | refer _ haround => simpa using congrArg List.length haround
  | extend new haround => simp [haround]
  | _ => rfl

/-- What is found around a scope stays what it is, apart from its line. -/
theorem Alters.find (h : s.Alters scope around operation scope' around')
    (hfound : ScopeStack.find key (around.map Scope.forget) = some (symbol.forget,depth)) :
    ScopeStack.find key (around'.map Scope.forget) = some (symbol.forget,depth) := by
  cases h with
  | refer _ haround => rw [haround]; exact hfound
  | extend new haround =>
    rw [haround,find_forget] at hfound
    obtain ⟨found,hfind,hforget⟩ := Option.map_eq_some_iff.mp hfound
    rw [find_forget,find_extend hfind new,← hforget]
    rfl
  | _ => exact hfound

theorem Shares.alters (h : Shares caseSensitive key symbol depth scope around)
    (hkey : StackCompiler.normalize caseSensitive key = key)
    (ha : s.Alters scope around operation scope' around')
    (hnot : ¬s.Declares scope.id key operation) :
    Shares caseSensitive key symbol depth scope' around' := by
  refine ⟨ha.rule.trans h.rule,ha.imported h.shared,?_,ha.find h.found⟩
  have hfree := h.free
  cases ha with
  | refer hscope =>
    have htable : scope'.table.forget = scope.table.forget := congrArg Scope.table hscope
    have hlookup := SymbolTable.lookup_forget scope'.table key
    rw [htable,SymbolTable.lookup_forget,hfree] at hlookup
    exact Option.map_eq_none_iff.mp hlookup.symm
  | @declare new htop hok =>
    rw [SymbolTable.lookup_append,hfree,Option.none_or,if_neg]
    intro hnew
    refine hnot ⟨congrArg Scope.id htop,?_,hok⟩
    rw [current,htop]
    refine Eq.trans hnew ?_
    rw [SymbolTable.normalize,h.rule,hkey]
  | remove => exact SymbolTable.lookup_remove_none hfree _
  | share other =>
    rw [Scope.share]
    split <;> exact hfree
  | extend => exact hfree

theorem Owned.alters (h : Owned caseSensitive key symbol depth scope around)
    (hkey : StackCompiler.normalize caseSensitive key = key)
    (ha : s.Alters scope around operation scope' around')
    (hnot : ¬s.Removes scope.id key operation) :
    Owned caseSensitive key symbol depth scope' around' := by
  refine ⟨ha.rule.trans h.rule,ha.length.trans h.depth,?_⟩
  have hfound := h.found
  cases ha with
  | refer hscope =>
    have htable : scope'.table.forget = scope.table.forget := congrArg Scope.table hscope
    rw [htable]
    exact hfound
  | declare =>
    rw [SymbolTable.lookup_forget] at hfound ⊢
    obtain ⟨own,hown,hforget⟩ := Option.map_eq_some_iff.mp hfound
    rw [SymbolTable.lookup_append,hown,← hforget]
    rfl
  | @remove name htop =>
    rw [SymbolTable.lookup_forget] at hfound ⊢
    rw [SymbolTable.lookup_remove,hfound]
    intro hname
    refine hnot ⟨congrArg Scope.id htop,?_⟩
    rw [current,htop,hname,SymbolTable.normalize,h.rule,hkey]
  | share other =>
    rw [Scope.share]
    split <;> exact hfound
  | extend => exact hfound

/-- What operations keep of an open scope holds as long as it is open; after that its number is not
used again. -/
theorem Stands.run {P : Scope → List Scope → Prop} {allowed : ScopeStack → Operation → Prop}
    {operations : List Operation} (h : s.Stands scope around) (hs : s.Numbered)
    (hstart : P scope around) (hallowed : s.Always allowed operations)
    (hstep : ∀ (s : ScopeStack) x xs operation y ys, x.id = scope.id → P x xs →
      allowed s operation → s.Alters x xs operation y ys → P y ys) :
    (operations.foldl ScopeStack.perform s).Gone scope.id ∨
      ∃ x xs, (operations.foldl ScopeStack.perform s).Stands x xs ∧ x.id = scope.id ∧ P x xs := by
  induction operations generalizing s scope around with
  | nil => exact .inr ⟨scope,around,h,rfl,hstart⟩
  | cons operation rest ih =>
    have hs' : (s.perform operation).Numbered := perform_of_moves hs fun _ _ => hs.moves
    rcases h.perform operation with ⟨x,xs,hx,hid,ha⟩ | ⟨hscopes,hnext⟩
    · rw [← hid] at hstep ⊢
      exact ih hx hs' (hstep s _ _ _ _ _ hid.symm hstart hallowed.1 ha) hallowed.2 hstep
    · left
      obtain ⟨above,hsplit⟩ := h.scopes_eq
      have hdistinct := hs.distinct
      have hbelow := hs.below scope.id (List.mem_map_of_mem (by simp [hsplit]))
      have hgone : (s.perform operation).Gone scope.id := by
        refine ⟨?_,by rw [hnext]; exact hbelow⟩
        rw [hscopes]
        rw [hsplit,List.map_append,List.map_cons] at hdistinct
        exact (List.nodup_cons.mp (List.nodup_append.mp hdistinct).2.1).1
      exact hgone.foldl rest

theorem Stands.run_innermost {P : Scope → List Scope → Prop} {allowed : ScopeStack → Operation → Prop}
    {operations : List Operation} (h : s.Stands scope around) (hs : s.Numbered)
    (hstart : P scope around) (hallowed : s.Always allowed operations)
    (hstep : ∀ (s : ScopeStack) x xs operation y ys, x.id = scope.id → P x xs →
      allowed s operation → s.Alters x xs operation y ys → P y ys)
    (htop : (operations.foldl ScopeStack.perform s).top.id = scope.id) :
    ∃ x rest, (operations.foldl ScopeStack.perform s).inner = x :: rest ∧
      P x (rest ++ [(operations.foldl ScopeStack.perform s).outermost]) := by
  rcases h.run hs hstart hallowed hstep with hgone | ⟨x,xs,hx,hid,hP⟩
  · exact absurd htop hgone.not_top
  · obtain ⟨rest,hinner,rfl⟩ := hx.innermost (hs.foldl operations) (htop.trans hid.symm)
    exact ⟨x,rest,hinner,hP⟩

end kept

section innermost

variable {s s' : ScopeStack} {scope : Scope} {rest : List Scope} {caseSensitive : Bool}
  {key name : String} {symbol : Symbol} {depth : Nat}

theorem Orderly.normalize_key (h : s.Orderly caseSensitive) (name : String) :
    s.normalize name = StackCompiler.normalize caseSensitive name := by
  rw [normalize_eq,h.caseSensitive_eq]

theorem resolve_of_lookup (hinner : s.inner = scope :: rest) (hname : s.normalize name = key)
    (h : scope.table.lookup key = some symbol) : s.resolve name = some (symbol,s.depth) := by
  rw [resolve,scopes,hinner,hname,List.cons_append,find,h,ScopeStack.depth,hinner]
  simp

theorem resolve_of_shared (hinner : s.inner = scope :: rest) (hname : s.normalize name = key)
    (hfree : scope.table.lookup key = none) (hshared : key ∈ scope.imported) :
    s.resolve name = find key (rest ++ [s.outermost]) := by
  have hhides : ¬scope.hides key = true := by
    rw [hides_eq_false_iff.mpr fun _ => hshared]
    exact Bool.false_ne_true
  rw [resolve,scopes,hinner,hname,List.cons_append,find,hfree]
  exact if_neg hhides

theorem Shares.resolve (hinner : s.inner = scope :: rest) (hname : s.normalize name = key)
    (h : Shares caseSensitive key symbol depth scope (rest ++ [s.outermost])) :
    ∃ line, s.resolve name = some ({ symbol with line },depth) := by
  have hfind := h.found
  rw [find_forget] at hfind
  obtain ⟨⟨found,_⟩,hfound,hforget⟩ := Option.map_eq_some_iff.mp hfind
  obtain ⟨hsymbol,rfl⟩ := Prod.mk.inj hforget
  refine ⟨found.line,?_⟩
  rw [resolve_of_shared hinner hname h.free h.shared,hfound,← Symbol.eq_of_forget hsymbol]
  rfl

theorem Owned.resolve (hinner : s.inner = scope :: rest) (hname : s.normalize name = key)
    (h : Owned caseSensitive key symbol depth scope (rest ++ [s.outermost])) :
    ∃ line, s.resolve name = some ({ symbol with line },depth) := by
  have hfind := h.found
  rw [SymbolTable.lookup_forget] at hfind
  obtain ⟨found,hfound,hforget⟩ := Option.map_eq_some_iff.mp hfind
  refine ⟨found.line,?_⟩
  have hdepth : s.depth = depth := by
    rw [← h.depth,ScopeStack.depth,hinner]
    simp
  rw [resolve_of_lookup hinner hname hfound,← Symbol.eq_of_forget hforget,hdepth]

theorem Orderly.exists_shares (hs : s.Orderly caseSensitive) {line : Line}
    (h : s.share name line = (.ok symbol,s')) (hfree : s.current.lookup name = none) :
    ∃ scope rest depth, s'.inner = scope :: rest ∧
      Shares caseSensitive (StackCompiler.normalize caseSensitive name) symbol depth scope
        (rest ++ [s'.outermost]) ∧
      s'.resolve name = some (symbol,depth) := by
  have hs' := hs.moves (moves_of_share h)
  obtain ⟨scope,rest,depth,hinner,hfind,rfl⟩ := share_eq_ok h
  rw [hs.normalize_key] at hfind hs' ⊢
  have htop : s.top = scope := by rw [top,hinner]; rfl
  have hrule : scope.table.caseSensitive = caseSensitive :=
    (hs scope (by simp [scopes,hinner])).1
  have htable : (scope.share (StackCompiler.normalize caseSensitive name)).table = scope.table := by
    unfold Scope.share
    split <;> rfl
  have hown : scope.table.lookup (StackCompiler.normalize caseSensitive name) = none := by
    rw [current,htop] at hfree
    rw [← hfree,SymbolTable.lookup,SymbolTable.lookup,SymbolTable.normalize,SymbolTable.normalize,
      hrule,normalize_normalize]
  have hshared : StackCompiler.normalize caseSensitive name ∈
      (scope.share (StackCompiler.normalize caseSensitive name)).imported := by
    unfold Scope.share
    split
    · next hmem => simpa using hmem
    · exact List.mem_cons_self
  rw [← htable] at hrule hown
  refine ⟨_,rest,depth,rfl,⟨hrule,hshared,hown,?_⟩,?_⟩
  · rw [find_forget,hfind]
    rfl
  · rw [resolve_of_shared rfl (hs'.normalize_key name) hown hshared]
    exact hfind

/-- A shared name can be declared, and then the scope has it itself. -/
theorem Shares.exists_declare (hinner : s.inner = scope :: rest)
    (h : Shares caseSensitive key symbol depth scope (rest ++ [s.outermost])) {new : Symbol}
    (hnew : StackCompiler.normalize caseSensitive new.name = key) :
    ∃ s' scope', s.declare new = (.ok { new with key },s') ∧ s'.inner = scope' :: rest ∧
      s'.top.id = s.top.id ∧ s'.depth = s.depth ∧ scope'.table.lookup key = some { new with key } ∧
      Owned caseSensitive key { new with key } s.depth scope' (rest ++ [s'.outermost]) := by
  have htop : s.top = scope := by rw [top,hinner]; rfl
  have hkeyed : s.current.keyed new = { new with key } := by
    rw [SymbolTable.keyed,SymbolTable.normalize,current,htop,h.rule,hnew]
  have hkey : scope.table.normalize key = key := by
    rw [SymbolTable.normalize,h.rule,← hnew,normalize_normalize]
  have hfree : s.current.lookup new.name = none := by
    rw [← h.free,current,htop,SymbolTable.lookup,SymbolTable.lookup,hkey,SymbolTable.normalize,h.rule,
      hnew]
  let table : SymbolTable :=
    { scope.table with symbols := scope.table.symbols ++ [{ new with key }] }
  have hadd : s.add [{ new with key }] = { s with inner := { scope with table } :: rest } := by
    rw [add,updateTop,hinner]
  have hlookup : table.lookup key = some { new with key } := by
    rw [SymbolTable.lookup_append,h.free,Option.none_or,if_pos hkey.symm]
  refine ⟨{ s with inner := { scope with table } :: rest },{ scope with table },?_,rfl,?_,?_,hlookup,
    h.rule,?_,?_⟩
  · rw [declare_of_lookup hfree,hkeyed,hadd]
  · rw [htop]
    rfl
  · rw [ScopeStack.depth,ScopeStack.depth,hinner]
    rfl
  · rw [ScopeStack.depth,hinner]
    simp
  · rw [SymbolTable.lookup_forget,hlookup]
    rfl

end innermost

/-- A name that the innermost scope shares, and has not declared, means the symbol that was found for
it whenever the scope is the innermost again, whatever was done meanwhile but to declare the name
there; only the line of the symbol moves with references to it. The scope can declare the name then:
at once the name means the new symbol, and goes on to do so whenever the scope is the innermost, until
it is removed. -/
theorem resolve_shared (name : String) (caseSensitive : Bool) (scoping : Scoping)
    (before later : List Operation) (called : String) (line : Line) (symbol : Symbol)
    (s₁ : ScopeStack)
    (hshare : (after name caseSensitive scoping before).share called line = (.ok symbol,s₁))
    (hfree : (after name caseSensitive scoping before).current.lookup called = none)
    (hlater : s₁.Always (fun s operation =>
      ¬s.Declares s₁.top.id (StackCompiler.normalize caseSensitive called) operation) later)
    (htop : (later.foldl perform s₁).top.id = s₁.top.id) :
    let key := StackCompiler.normalize caseSensitive called
    let s₂ := later.foldl perform s₁
    (∃ depth, s₁.resolve called = some (symbol,depth) ∧
      ∃ line', s₂.resolve called = some ({ symbol with line := line' },depth)) ∧
    ∀ new : Symbol, StackCompiler.normalize caseSensitive new.name = key →
      ∃ s₃, s₂.declare new = (.ok { new with key },s₃) ∧
        s₃.resolve called = some ({ new with key },s₂.depth) ∧
        ∀ rest, s₃.Always (fun s operation => ¬s.Removes s₁.top.id key operation) rest →
          (rest.foldl perform s₃).top.id = s₁.top.id →
          ∃ line', (rest.foldl perform s₃).resolve called =
            some ({ new with key, line := line' },s₂.depth) := by
  intro key s₂
  have hkey : StackCompiler.normalize caseSensitive key = key := normalize_normalize _ _
  have horderly := orderly_after name caseSensitive scoping before
  have hnumbered := numbered_after name caseSensitive scoping before
  generalize after name caseSensitive scoping before = s₀ at *
  have hmoves := moves_of_share hshare
  obtain ⟨scope,rest,depth,hinner,hshares,hresolve⟩ := horderly.exists_shares hshare hfree
  have hid : s₁.top.id = scope.id := by rw [top,hinner]; rfl
  rw [hid] at hlater htop ⊢
  have horderly₂ : s₂.Orderly caseSensitive := (horderly.moves hmoves).foldl later
  have hnumbered₂ : s₂.Numbered := (hnumbered.moves hmoves).foldl later
  have hstands : s₁.Stands scope (rest ++ [s₁.outermost]) := ⟨[],rest,hinner,rfl⟩
  obtain ⟨scope₂,rest₂,hinner₂,hshares₂⟩ : ∃ x rest, s₂.inner = x :: rest ∧
      Shares caseSensitive key symbol depth x (rest ++ [s₂.outermost]) :=
    hstands.run_innermost (hnumbered.moves hmoves) hshares hlater
      (fun s _ _ _ _ _ hid hx hallowed ha => hx.alters hkey ha (hid ▸ hallowed)) htop
  refine ⟨⟨depth,hresolve,hshares₂.resolve hinner₂ (horderly₂.normalize_key called)⟩,
    fun new hnew => ?_⟩
  obtain ⟨s₃,scope₃,hdeclare,hinner₃,htop₃,hdepth₃,hlookup,howned⟩ :=
    hshares₂.exists_declare hinner₂ hnew
  have hmoves₃ := moves_of_declare hdeclare
  have horderly₃ := horderly₂.moves hmoves₃
  refine ⟨s₃,hdeclare,?_,fun rest hrest hback => ?_⟩
  · rw [resolve_of_lookup hinner₃ (horderly₃.normalize_key called) hlookup,hdepth₃]
  · have hid₃ : scope₃.id = scope.id := by
      rw [← htop,← htop₃,top,hinner₃]
      rfl
    rw [← hid₃] at hrest hback
    have hstands₃ : s₃.Stands scope₃ (rest₂ ++ [s₃.outermost]) := ⟨[],rest₂,hinner₃,rfl⟩
    obtain ⟨x,rest₄,hinner₄,howned₄⟩ := hstands₃.run_innermost (hnumbered₂.moves hmoves₃) howned hrest
      (fun s _ _ _ _ _ hid hx hallowed ha => hx.alters hkey ha (hid ▸ hallowed)) hback
    exact howned₄.resolve hinner₄ ((horderly₃.foldl rest).normalize_key called)

/-- A closed scope shares `n`; meanwhile a scope within it declares an `N` of its own and is closed,
and the outermost scope gains a name. -/
theorem resolve_shared_past_inner :
    let n : Symbol := { name := "n", key := "N", type := .scalar .integer, cls := .variable, line := 1 }
    let own : Symbol := { name := "N", key := "", type := .scalar .double, cls := .variable, line := 4 }
    let s := after "P" false .nested [.declare n,.push "A" .opened,.push "B" .closed,.share "n" 3]
    let later : List Operation := [.push "C" .closed,.declare own,.pop ⟨3,3⟩,
      .declareGlobal { own with name := "m" },.remove "n",.touch (n,0) 7]
    (∃ depth line, (later.foldl perform s).resolve "n" = some ({ n with line },depth)) ∧
      ∃ s', (later.foldl perform s).declare own = (.ok { own with key := "N" },s') ∧
        s'.resolve "n" = some ({ own with key := "N" },2) := by
  intro n own s later
  obtain ⟨⟨depth,_,line,hline⟩,hown⟩ := resolve_shared "P" false .nested
    [.declare n,.push "A" .opened,.push "B" .closed] later "n" 3 n s (by decide +kernel)
    (by decide +kernel) (by decide +kernel) (by decide +kernel)
  obtain ⟨s',hdeclare,hresolve,_⟩ := hown own (by decide +kernel)
  have hkey : StackCompiler.normalize false "n" = "N" := by decide +kernel
  have hdepth : (later.foldl perform s).depth = 2 := by decide +kernel
  rw [hkey] at hdeclare hresolve
  rw [hdepth] at hresolve
  exact ⟨⟨depth,line,hline⟩,s',hdeclare,hresolve⟩

end ScopeStack
end StackCompiler
