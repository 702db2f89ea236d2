import StackCompiler.Lowering.Declaration

/-! Symbols and scopes apart from the lines at which they were last referred to, and from the numbers
of the scopes. -/
namespace StackCompiler

/-- If the operation fails, it leaves things as they were. -/
def Cautious {α σ : Type} (x : Except Diagnostic α × σ) (s : σ) : Prop :=
  ∀ d s', x = (.error d,s') → s' = s

theorem SymbolTable.cautious_declare (t : SymbolTable) (symbol : Symbol) :
    Cautious (t.declare symbol) t := by
  intro d t' h
  unfold declare at h
  split at h <;> cases h
  rfl

namespace ScopeStack

theorem cautious_push (s : ScopeStack) (name : String) (discipline : Discipline) :
    Cautious (s.push name discipline) s := by
  intro d s' h
  unfold push at h
  split at h <;> cases h
  rfl

theorem cautious_pop (s : ScopeStack) (handle : ScopeHandle) : Cautious (s.pop handle) s := by
  intro d s' h
  unfold pop at h
  split at h
  · cases h
    rfl
  · split at h <;> cases h
    rfl

theorem updateTop_current (s : ScopeStack) :
    (s.updateTop fun scope => { scope with table := s.current }) = s := by
  obtain ⟨inner,outermost,scoping,nextId⟩ := s
  cases inner <;> rfl

theorem cautious_declare (s : ScopeStack) (symbol : Symbol) : Cautious (s.declare symbol) s := by
  intro d s' h
  rcases hd : s.current.declare symbol with ⟨result,table⟩
  rw [declare,hd] at h
  cases h
  rw [s.current.cautious_declare symbol d table hd]
  exact s.updateTop_current

theorem cautious_declareGlobal (s : ScopeStack) (symbol : Symbol) :
    Cautious (s.declareGlobal symbol) s := by
  intro d s' h
  rcases hd : s.global.declare symbol with ⟨result,table⟩
  rw [declareGlobal,hd] at h
  cases h
  rw [s.global.cautious_declare symbol d table hd]
  rfl

theorem cautious_share (s : ScopeStack) (name : String) (line : Line) :
    Cautious (s.share name line) s := by
  intro d s' h
  unfold share at h
  grind

end ScopeStack

def Symbol.forget (s : Symbol) : Symbol := { s with line := noLine }

@[simp] theorem Symbol.forget_touch (s : Symbol) (line : Line) : (s.touch line).forget = s.forget := by
  unfold touch
  split <;> rfl

def SymbolTable.entries (t : SymbolTable) : List Symbol := t.symbols.map Symbol.forget

@[simp] theorem SymbolTable.entries_touch (t : SymbolTable) (key : String) (line : Line) :
    (t.touch key line).entries = t.entries := by
  simp only [entries,touch,List.map_map]
  congr 1
  funext s
  simp only [Function.comp_apply]
  split
  · exact s.forget_touch line
  · rfl

def SymbolTable.forget (t : SymbolTable) : SymbolTable := { t with symbols := t.entries }

@[simp] theorem SymbolTable.forget_touch (t : SymbolTable) (key : String) (line : Line) :
    (t.touch key line).forget = t.forget := by
  rw [forget,entries_touch]
  rfl

def Scope.forget (s : Scope) : Scope := { s with id := 0, table := s.table.forget }

namespace ScopeStack

def Owns (s : ScopeStack) (symbol : Symbol) : Prop := symbol.forget ∈ s.current.entries

theorem depth_lt_of_find {key : String} {scopes : List Scope} {found : Symbol × Nat}
    (h : find key scopes = some found) : found.2 < scopes.length := by
  induction scopes with
  | nil => cases h
  | cons scope rest ih =>
    rw [find] at h
    split at h
    · cases h
      exact Nat.lt_succ_self _
    · split at h
      · cases h
      · exact Nat.lt_succ_of_lt (ih h)

theorem mem_of_find {key : String} {scope : Scope} {rest : List Scope} {symbol : Symbol}
    (h : find key (scope :: rest) = some (symbol,rest.length)) : symbol ∈ scope.table.symbols := by
  rw [find] at h
  split at h
  · next found hf =>
    simp only [Option.some.injEq,Prod.mk.injEq,and_true] at h
    subst h
    exact List.mem_of_find?_eq_some hf
  · split at h
    · cases h
    · exact absurd (depth_lt_of_find h) (Nat.lt_irrefl _)

theorem owns_of_resolve {s : ScopeStack} {name : String} {symbol : Symbol}
    (h : s.resolve name = some (symbol,s.depth)) : s.Owns symbol := by
  refine List.mem_map_of_mem ?_
  unfold resolve scopes depth at h
  unfold current top
  cases hi : s.inner with
  | nil =>
    rw [hi] at h
    exact mem_of_find h
  | cons scope rest =>
    rw [hi] at h
    have hf : find (s.normalize name) (scope :: (rest ++ [s.outermost])) =
        some (symbol,(rest ++ [s.outermost]).length) := by simpa using h
    exact mem_of_find hf

@[simp] theorem length_touchAt (key : String) (line : Line) (depth : Nat) (scopes : List Scope) :
    (touchAt key line depth scopes).length = scopes.length := by
  induction scopes with
  | nil => rfl
  | cons scope rest ih =>
    rw [touchAt]
    split <;> simp [ih]

@[simp] theorem depth_touch (s : ScopeStack) (found : Symbol × Nat) (line : Line) :
    (s.touch found line).depth = s.depth := by
  unfold touch
  split <;> simp [depth]

@[simp] theorem entries_current_touch (s : ScopeStack) (found : Symbol × Nat) (line : Line) :
    (s.touch found line).current.entries = s.current.entries := by
  unfold touch
  split
  · unfold current top
    cases s.inner <;> simp
  · unfold current top
    cases hi : s.inner with
    | nil => rfl
    | cons scope rest =>
      simp only [touchAt,List.headD_cons]
      split <;> simp

@[simp] theorem current_updateTop (s : ScopeStack) (f : Scope → Scope) :
    (s.updateTop f).current = (f s.top).table := by
  unfold updateTop current top
  cases s.inner <;> rfl

/-- The scopes without their numbers and the lines of last references. -/
def forget (s : ScopeStack) : ScopeStack :=
  { s with inner := s.inner.map Scope.forget, outermost := s.outermost.forget, nextId := 0 }

@[simp] theorem scopes_forget (s : ScopeStack) : s.forget.scopes = s.scopes.map Scope.forget := by
  simp [scopes,forget]

theorem map_forget_touchAt (key : String) (line : Line) (depth : Nat) (scopes : List Scope) :
    (touchAt key line depth scopes).map Scope.forget = scopes.map Scope.forget := by
  induction scopes with
  | nil => rfl
  | cons scope rest ih =>
    rw [touchAt]
    split
    · simp [Scope.forget]
    · rw [List.map_cons,List.map_cons,ih]

@[simp] theorem forget_touch (s : ScopeStack) (found : Symbol × Nat) (line : Line) :
    (s.touch found line).forget = s.forget := by
  unfold touch
  split
  · simp [forget,Scope.forget]
  · simp [forget,map_forget_touchAt]

def add (s : ScopeStack) (symbols : List Symbol) : ScopeStack :=
  s.updateTop fun scope =>
    { scope with table := { scope.table with symbols := scope.table.symbols ++ symbols } }

@[simp] theorem add_nil (s : ScopeStack) : s.add [] = s := by
  unfold add updateTop
  cases h : s.inner <;> simp [← h]

@[simp] theorem add_add (s : ScopeStack) (xs ys : List Symbol) :
    (s.add xs).add ys = s.add (xs ++ ys) := by
  unfold add updateTop
  cases s.inner <;> simp

@[simp] theorem current_add (s : ScopeStack) (xs : List Symbol) :
    (s.add xs).current = { s.current with symbols := s.current.symbols ++ xs } :=
  current_updateTop s _

@[simp] theorem depth_add (s : ScopeStack) (xs : List Symbol) : (s.add xs).depth = s.depth := by
  unfold add updateTop depth
  cases s.inner <;> rfl

@[simp] theorem caseSensitive_add (s : ScopeStack) (xs : List Symbol) :
    (s.add xs).caseSensitive = s.caseSensitive := by
  unfold add updateTop caseSensitive global
  cases s.inner <;> rfl

@[simp] theorem normalize_add (s : ScopeStack) (xs : List Symbol) :
    (s.add xs).normalize = s.normalize := by
  unfold add updateTop normalize global
  cases s.inner <;> rfl

theorem declare_of_lookup {s : ScopeStack} {symbol : Symbol}
    (h : s.current.lookup symbol.name = none) :
    s.declare symbol = (.ok (s.current.keyed symbol),s.add [s.current.keyed symbol]) := by
  unfold declare SymbolTable.declare
  rw [h]
  unfold add updateTop current top
  cases s.inner <;> rfl

theorem declare_of_taken {s : ScopeStack} {symbol found : Symbol}
    (h : s.current.lookup symbol.name = some found) :
    s.declare symbol = (.error ⟨symbol.line,.duplicateSymbol symbol.name s.current.name⟩,s) := by
  simp only [declare,SymbolTable.declare,h,updateTop_current]

theorem declare_eq_ok {s s' : ScopeStack} {symbol declared : Symbol}
    (h : s.declare symbol = (.ok declared,s')) :
    declared = s.current.keyed symbol ∧ s.current.lookup symbol.name = none ∧
      s' = s.add [declared] := by
  cases hl : s.current.lookup symbol.name with
  | some =>
    rw [declare_of_taken hl] at h
    cases h
  | none =>
    rw [declare_of_lookup hl] at h
    cases h
    exact ⟨rfl,rfl,rfl⟩

theorem share_eq_ok {s s' : ScopeStack} {name : String} {line : Line} {symbol : Symbol}
    (h : s.share name line = (.ok symbol,s')) :
    ∃ scope rest depth, s.inner = scope :: rest ∧
      find (s.normalize name) (rest ++ [s.outermost]) = some (symbol,depth) ∧
      s' = { s with inner := scope.share (s.normalize name) :: rest } := by
  unfold share at h
  grind

/-- In the outermost scope there is only one place to declare. -/
theorem declareGlobal_eq_declare {s : ScopeStack} (h : s.depth = 0) (symbol : Symbol) :
    s.declareGlobal symbol = s.declare symbol := by
  have hi : s.inner = [] := List.length_eq_zero_iff.mp h
  unfold declareGlobal declare updateTop current top global
  rw [hi]
  rfl

end ScopeStack

/-- What a declaration introduces has its name, type and class, and is a constant or a variable. -/
theorem Lowering.declared_eq_ok {d : Declaration} {symbol : Symbol} (h : declared d = .ok symbol) :
    symbol.name = d.name ∧ symbol.type = d.type ∧ symbol.cls = d.cls ∧
      (d.cls = .constant ∨ d.cls = .variable) := by
  unfold declared at h
  grind [Declaration.symbol]

theorem Lowering.cautious_declare (d : Declaration) (scopes : ScopeStack) :
    Cautious (declare d scopes) scopes := by
  intro e scopes' h
  unfold declare at h
  split at h
  · cases h
    rfl
  · exact scopes.cautious_declare _ e scopes' h

/-- A declaration gives the symbol that it introduces, under its key. -/
theorem Lowering.declare_cases {d : Declaration} {scopes scopes' : ScopeStack} {symbol : Symbol}
    (h : declare d scopes = (.ok symbol,scopes')) :
    ∃ new, declared d = .ok new ∧ symbol = scopes.current.keyed new ∧
      scopes.current.lookup new.name = none ∧ scopes' = scopes.add [symbol] := by
  unfold declare at h
  split at h
  · cases h
  · next new hnew =>
    obtain ⟨hsymbol,hl,hscopes⟩ := ScopeStack.declare_eq_ok h
    exact ⟨new,hnew,hsymbol,hl,hscopes⟩

theorem Symbol.eq_of_forget {x y : Symbol} (h : x.forget = y.forget) : x = { y with line := x.line } :=
  congrArg (fun z : Symbol => { z with line := x.line }) h

theorem SymbolTable.lookup_forget (t : SymbolTable) (name : String) :
    t.forget.lookup name = (t.lookup name).map Symbol.forget :=
  List.find?_map

namespace ScopeStack

theorem find_forget (key : String) (scopes : List Scope) :
    find key (scopes.map Scope.forget) = (find key scopes).map (Prod.map Symbol.forget id) := by
  induction scopes with
  | nil => rfl
  | cons scope rest ih =>
    rw [List.map_cons,find,find,Scope.forget,SymbolTable.lookup_forget,List.length_map]
    cases scope.table.lookup key with
    | some symbol => rfl
    | none =>
      simp only [Option.map_none,ih]
      change (if scope.hides key = true then none else _) = _
      split <;> rfl

theorem findRoutine_forget (key : String) (scopes : List Scope) :
    findRoutine key (scopes.map Scope.forget) =
      (findRoutine key scopes).map (Prod.map Symbol.forget id) := by
  induction scopes with
  | nil => rfl
  | cons scope rest ih =>
    rw [List.map_cons,findRoutine,findRoutine,Scope.forget,SymbolTable.lookup_forget,List.length_map,ih]
    cases scope.table.lookup key with
    | none => rfl
    | some symbol =>
      have hsame : symbol.forget.isRoutine = symbol.isRoutine := rfl
      cases hr : symbol.isRoutine <;> simp [Option.filter,hsame,hr]

theorem resolve_forget (s : ScopeStack) (name : String) :
    s.forget.resolve name = (s.resolve name).map (Prod.map Symbol.forget id) := by
  rw [resolve,resolve,scopes_forget,find_forget]
  rfl

theorem resolveRoutine_forget (s : ScopeStack) (name : String) :
    s.forget.resolveRoutine name = (s.resolveRoutine name).map (Prod.map Symbol.forget id) := by
  rw [resolveRoutine,resolveRoutine,resolve_forget,scopes_forget,findRoutine_forget]
  cases s.resolve name <;> rfl

theorem current_forget (s : ScopeStack) : s.forget.current = s.current.forget := by
  unfold current top forget
  cases s.inner <;> rfl

theorem forget_add (s : ScopeStack) (xs : List Symbol) :
    (s.add xs).forget = s.forget.add (xs.map Symbol.forget) := by
  unfold add updateTop forget
  cases s.inner <;> simp [Scope.forget,SymbolTable.forget,SymbolTable.entries]

section alike

variable {s t : ScopeStack} {name : String}

/-- Where two lookups agree apart from lines, what one finds the other finds at some line. -/
theorem found_of_map {x y : Option (Symbol × Nat)} {symbol : Symbol} {depth : Nat}
    (h : x.map (Prod.map Symbol.forget id) = y.map (Prod.map Symbol.forget id))
    (hy : y = some (symbol,depth)) : ∃ line, x = some ({ symbol with line },depth) := by
  rw [hy] at h
  cases x with
  | none => cases h
  | some found =>
    obtain ⟨found,n⟩ := found
    simp only [Option.map_some,Prod.map_apply,id_eq,Option.some.injEq,Prod.mk.injEq] at h
    obtain ⟨hf,rfl⟩ := h
    exact ⟨found.line,congrArg (fun z => some (z,n)) (Symbol.eq_of_forget hf)⟩

theorem resolve_of_forget (h : s.forget = t.forget) {symbol : Symbol} {depth : Nat}
    (hr : t.resolve name = some (symbol,depth)) :
    ∃ line, s.resolve name = some ({ symbol with line },depth) :=
  found_of_map (by rw [← resolve_forget,h,resolve_forget]) hr

theorem resolve_none_of_forget (h : s.forget = t.forget) (hr : t.resolve name = none) :
    s.resolve name = none := by
  have hmap := resolve_forget s name
  rw [h,resolve_forget,hr] at hmap
  exact Option.map_eq_none_iff.mp hmap.symm

theorem resolveRoutine_of_forget (h : s.forget = t.forget) {symbol : Symbol} {depth : Nat}
    (hr : t.resolveRoutine name = some (symbol,depth)) :
    ∃ line, s.resolveRoutine name = some ({ symbol with line },depth) :=
  found_of_map (by rw [← resolveRoutine_forget,h,resolveRoutine_forget]) hr

theorem resolveRoutine_none_of_forget (h : s.forget = t.forget) (hr : t.resolveRoutine name = none) :
    s.resolveRoutine name = none := by
  have hmap := resolveRoutine_forget s name
  rw [h,resolveRoutine_forget,hr] at hmap
  exact Option.map_eq_none_iff.mp hmap.symm

theorem normalize_of_forget (h : s.forget = t.forget) : s.normalize name = t.normalize name := by
  change s.forget.normalize name = t.forget.normalize name
  rw [h]

theorem current_lookup_of_forget (h : s.forget = t.forget) (hl : t.current.lookup name = none) :
    s.current.lookup name = none := by
  have hmap := SymbolTable.lookup_forget s.current name
  rw [← current_forget,h,current_forget,SymbolTable.lookup_forget,hl] at hmap
  exact Option.map_eq_none_iff.mp hmap.symm

theorem depth_of_forget (h : s.forget = t.forget) : s.depth = t.depth := by
  have hlength := congrArg (fun x => x.inner.length) h
  simpa [forget,depth] using hlength

theorem caseSensitive_of_forget (h : s.forget = t.forget) : s.caseSensitive = t.caseSensitive := by
  change s.forget.caseSensitive = t.forget.caseSensitive
  rw [h]

theorem keyed_of_forget (h : s.forget = t.forget) : s.current.keyed = t.current.keyed := by
  have hcase : s.current.caseSensitive = t.current.caseSensitive := by
    change s.current.forget.caseSensitive = t.current.forget.caseSensitive
    rw [← current_forget,← current_forget,h]
  funext symbol
  unfold SymbolTable.keyed SymbolTable.normalize
  rw [hcase]

theorem push_of_forget (h : s.forget = t.forget) {discipline : Discipline} {handle : ScopeHandle}
    {t' : ScopeStack} (hp : t.push name discipline = (.ok handle,t')) :
    ∃ handle' s', s.push name discipline = (.ok handle',s') ∧ s'.forget = t'.forget := by
  have hscoping : s.forget.scoping = t.forget.scoping := by rw [h]
  have hcase : s.forget.caseSensitive = t.forget.caseSensitive := by rw [h]
  have hglobal : s.isGlobal = t.isGlobal := by
    have hdepth := depth_of_forget h
    unfold depth at hdepth
    rw [isGlobal,isGlobal,Bool.eq_iff_iff,List.isEmpty_iff_length_eq_zero,
      List.isEmpty_iff_length_eq_zero,hdepth]
  unfold push at hp ⊢
  rw [show s.scoping = t.scoping from hscoping,hglobal,show s.caseSensitive = t.caseSensitive from hcase]
  split at hp
  · cases hp
  · next hnot =>
    cases hp
    rw [if_neg hnot]
    refine ⟨_,_,rfl,?_⟩
    unfold forget at h ⊢
    simp only [ScopeStack.mk.injEq,List.map_cons,List.cons.injEq] at h ⊢
    exact ⟨⟨rfl,h.1⟩,h.2.1,trivial,trivial⟩

theorem declare_of_forget (h : s.forget = t.forget) {symbol declared : Symbol} {t' : ScopeStack}
    (hd : t.declare symbol = (.ok declared,t')) :
    ∃ s', s.declare symbol = (.ok declared,s') ∧ s'.forget = t'.forget := by
  obtain ⟨rfl,hl,rfl⟩ := declare_eq_ok hd
  rw [declare_of_lookup (current_lookup_of_forget h hl),keyed_of_forget h]
  exact ⟨_,rfl,by rw [forget_add,forget_add,h]⟩

theorem forget_share (scope : Scope) (key : String) :
    (scope.share key).forget = scope.forget.share key := by
  unfold Scope.share Scope.forget
  split <;> rfl

theorem share_of_forget (h : s.forget = t.forget) {line : Line} {symbol : Symbol} {t' : ScopeStack}
    (hs : t.share name line = (.ok symbol,t')) :
    ∃ symbol' s', s.share name line = (.ok symbol',s') ∧ s'.forget = t'.forget := by
  obtain ⟨scope,rest,depth,hi,hfind,rfl⟩ := share_eq_ok hs
  have hinner : s.inner.map Scope.forget = scope.forget :: rest.map Scope.forget := by
    rw [← List.map_cons,← hi]
    exact congrArg ScopeStack.inner h
  have houter : s.outermost.forget = t.outermost.forget := congrArg ScopeStack.outermost h
  obtain ⟨scope',rest',hi',hscope,hrest⟩ := List.map_eq_cons_iff.mp hinner
  have hmap : (find (s.normalize name) (rest' ++ [s.outermost])).map (Prod.map Symbol.forget id) =
      (find (t.normalize name) (rest ++ [t.outermost])).map (Prod.map Symbol.forget id) := by
    rw [← find_forget,← find_forget,normalize_of_forget h,List.map_append,List.map_append,hrest]
    simp only [List.map_cons,List.map_nil,houter]
  obtain ⟨l,hfind'⟩ := found_of_map hmap hfind
  refine ⟨{ symbol with line := l },{ s with inner := scope'.share (s.normalize name) :: rest' },?_,?_⟩
  · rw [share,hi']
    simp only [hfind']
  · have hshare : (scope'.share (s.normalize name)).forget = (scope.share (t.normalize name)).forget := by
      rw [forget_share,forget_share,hscope,normalize_of_forget h]
    change ({ s.forget with inner := (scope'.share (s.normalize name)).forget :: rest'.map Scope.forget } :
      ScopeStack) = { t.forget with inner := (scope.share (t.normalize name)).forget :: rest.map Scope.forget }
    rw [h,hshare,hrest]

end alike

/-- The scopes around the innermost one, without numbers and lines. -/
def around (s : ScopeStack) : ScopeStack := { s.forget with inner := s.forget.inner.tail }

section around

variable {s s' : ScopeStack}

theorem around_of_forget (h : s'.forget = s.forget) : s'.around = s.around := by
  unfold around
  rw [h]

theorem around_push {name : String} {discipline : Discipline} {handle : ScopeHandle}
    (h : s.push name discipline = (.ok handle,s')) : s'.around = s.forget := by
  unfold push at h
  split at h <;> cases h
  rfl

theorem forget_pop {handle : ScopeHandle} {table : SymbolTable}
    (h : s.pop handle = (.ok table,s')) : s'.forget = s.around := by
  unfold pop at h
  split at h
  · cases h
  · next scope rest hi =>
    split at h
    · cases h
      unfold around forget
      rw [hi]
      rfl
    · cases h

theorem around_add (h : s.depth ≠ 0) (symbols : List Symbol) : (s.add symbols).around = s.around := by
  unfold depth at h
  unfold around forget add updateTop
  cases hi : s.inner with
  | nil =>
    rw [hi] at h
    exact absurd rfl h
  | cons top rest => rfl

theorem around_share {name : String} {line : Line} {symbol : Symbol}
    (h : s.share name line = (.ok symbol,s')) : s'.around = s.around := by
  obtain ⟨scope,rest,_,hi,_,rfl⟩ := share_eq_ok h
  unfold around forget
  rw [hi]
  rfl

end around

/-- Which scopes are open, and whether case matters in them. -/
def outline (s : ScopeStack) : List (Nat × Bool) × Bool :=
  (s.inner.map fun x => (x.id,x.table.caseSensitive),s.caseSensitive)

section outline

variable {s s' : ScopeStack}

theorem depth_of_outline (h : s'.outline = s.outline) : s'.depth = s.depth := by
  have hlength := congrArg (fun o => o.1.length) h
  simpa [outline,depth] using hlength

theorem rule_of_outline (h : s'.outline = s.outline) :
    s'.current.caseSensitive = s.current.caseSensitive := by
  have hrule : ∀ x : ScopeStack,
      x.current.caseSensitive = (x.outline.1.map Prod.snd).headD x.outline.2 := by
    intro x
    unfold current top outline
    cases x.inner <;> rfl
  rw [hrule,hrule,h]

@[simp] theorem outline_touch (s : ScopeStack) (found : Symbol × Nat) (line : Line) :
    (s.touch found line).outline = s.outline := by
  unfold touch
  split
  · rfl
  · next depth _ =>
    have hinner : ∀ scopes : List Scope, (touchAt found.1.key line depth scopes).map
        (fun x => (x.id,x.table.caseSensitive)) =
          scopes.map fun x => (x.id,x.table.caseSensitive) := by
      intro scopes
      induction scopes with
      | nil => rfl
      | cons scope rest ih =>
        rw [touchAt]
        split
        · rfl
        · rw [List.map_cons,List.map_cons,ih]
    exact congrArg (·,s.caseSensitive) (hinner s.inner)

@[simp] theorem outline_add (s : ScopeStack) (symbols : List Symbol) :
    (s.add symbols).outline = s.outline := by
  unfold outline
  rw [caseSensitive_add]
  unfold add updateTop
  cases s.inner <;> rfl

theorem outline_share {name : String} {line : Line} {symbol : Symbol}
    (h : s.share name line = (.ok symbol,s')) : s'.outline = s.outline := by
  obtain ⟨scope,rest,_,hi,_,rfl⟩ := share_eq_ok h
  unfold outline
  rw [hi,List.map_cons,List.map_cons,Scope.share]
  split <;> rfl

theorem outline_declare {symbol declared : Symbol} (h : s.declare symbol = (.ok declared,s')) :
    s'.outline = s.outline := by
  obtain ⟨_,_,rfl⟩ := declare_eq_ok h
  exact outline_add s _

theorem outline_push {name : String} {discipline : Discipline} {handle : ScopeHandle}
    (h : s.push name discipline = (.ok handle,s')) :
    s'.outline = ((handle.id,s.caseSensitive) :: s.outline.1,s.outline.2) := by
  unfold push at h
  split at h <;> cases h
  rfl

end outline

end ScopeStack

end StackCompiler
