import StackCompiler.Code.Module
import StackCompiler.Proofs.Names
import StackCompiler.Proofs.OperandTypes

/-! What the symbols of the open scopes stand for.
The symbol of a routine leads to code of the module, and a constant has the type of its value. While
a body is put into code this stays so, and nothing changes below the scopes of routines. -/
namespace StackCompiler

def RoutineCode.paramTypes (rc : RoutineCode) : List Ty :=
  (rc.frame.take rc.params).map SlotInfo.type

/-- One of the routines has the entry name, the types of parameters and the type of the result. -/
def Linked (final : List RoutineCode) (entry : String) (params : List Ty) (type : Ty) : Prop :=
  ∃ rc ∈ final, rc.name = entry ∧ rc.paramTypes = params ∧ type = .scalar rc.returns

theorem Linked.mono {xs ys : List RoutineCode} (h : xs ⊆ ys) {entry : String} {params : List Ty}
    {type : Ty} (hl : Linked xs entry params type) : Linked ys entry params type := by
  obtain ⟨rc,hrc,hrest⟩ := hl
  exact ⟨rc,h hrc,hrest⟩

/-- The symbol of a routine leads to one of the routines, and a constant has the type of its value. -/
structure Symbol.Stands (final : List RoutineCode) (symbol : Symbol) : Prop where
  routine : symbol.isRoutine = true →
    Linked final (symbol.entry.getD symbol.key) symbol.params symbol.type
  constant : symbol.cls = .constant → ∀ l, symbol.value = some l → symbol.type = .scalar l.base

theorem Symbol.Stands.mono {xs ys : List RoutineCode} (h : xs ⊆ ys) {symbol : Symbol}
    (hs : symbol.Stands xs) : symbol.Stands ys :=
  ⟨fun hr => (hs.routine hr).mono h,hs.constant⟩

/-- A symbol that is neither a routine nor a constant stands for itself. -/
theorem Symbol.stands_of_cls {final : List RoutineCode} {symbol : Symbol}
    (hf : symbol.cls ≠ .function) (hc : symbol.cls ≠ .constant) : symbol.Stands final := by
  refine ⟨fun h => ?_,fun h => absurd h hc⟩
  exact absurd (beq_iff_eq.mp h) hf

theorem Lowering.type_of_constant {d : Declaration} {symbol : Symbol} {l : Literal}
    (h : declared d = .ok symbol) (hc : symbol.cls = .constant) (hl : symbol.value = some l) :
    symbol.type = .scalar l.base := by
  rw [(declared_eq_ok h).2.2.1] at hc
  unfold declared at h
  simp only [hc] at h
  split at h
  · cases h
  · next hd =>
    have hscalar : d.type.isScalar = true := by simpa [Ty.isScalar,Declaration.type] using hd
    split at h
    · cases h
    · next value hv =>
      split at h
      · cases h
      · next ht =>
        cases h
        cases hl
        rcases Typing.assign_scalar_cases ht hscalar with ⟨_,he⟩ | ⟨he,_⟩
        · exact he.symm
        · cases he
      · next ht =>
        cases h
        cases hl
        rcases Typing.assign_scalar_cases ht hscalar with ⟨he,_⟩ | ⟨_,hi,hdouble⟩
        · cases he
        · change d.type = _
          rw [hdouble]
          cases value <;> cases hi
          rfl

/-- What a declaration introduces stands for itself or for its value, under any key. -/
theorem Lowering.stands_declared {d : Declaration} {new : Symbol} (final : List RoutineCode)
    (h : declared d = .ok new) (key : String) (line : Line) :
    ({ new with key, line } : Symbol).Stands final := by
  obtain ⟨_,_,hcls,hkind⟩ := declared_eq_ok h
  rw [← hcls] at hkind
  have hvalue : new.cls = .constant → ∀ l, new.value = some l → new.type = .scalar l.base :=
    fun hc l hl => type_of_constant h hc hl
  refine ⟨fun hr => ?_,hvalue⟩
  have hf : new.cls = .function := beq_iff_eq.mp hr
  rcases hkind with hk | hk <;> rw [hk] at hf <;> cases hf

namespace ScopeStack

section found

variable {s : ScopeStack} {key name : String} {scopes : List Scope} {found : Symbol × Nat}

/-- A symbol is found in one of the scopes; its depth is the number of those behind it. -/
theorem exists_of_find (h : find key scopes = some found) :
    ∃ before scope after, scopes = before ++ scope :: after ∧ found.1 ∈ scope.table.symbols ∧
      after.length = found.2 := by
  induction scopes with
  | nil => cases h
  | cons scope rest ih =>
    rw [find] at h
    split at h
    · next symbol hs =>
      cases h
      exact ⟨[],scope,rest,rfl,List.mem_of_find?_eq_some hs,rfl⟩
    · split at h
      · cases h
      · obtain ⟨before,x,after,hrest,hx⟩ := ih h
        exact ⟨scope :: before,x,after,by rw [hrest]; rfl,hx⟩

theorem exists_of_findRoutine (h : findRoutine key scopes = some found) :
    ∃ scope ∈ scopes, found.1 ∈ scope.table.symbols := by
  induction scopes with
  | nil => cases h
  | cons scope rest ih =>
    rw [findRoutine] at h
    split at h
    · next symbol hs =>
      cases h
      have hl : scope.table.lookup key = some symbol := (Option.filter_eq_some_iff.mp hs).1
      exact ⟨scope,List.mem_cons_self,List.mem_of_find?_eq_some hl⟩
    · obtain ⟨x,hx,hmem⟩ := ih h
      exact ⟨x,List.mem_cons_of_mem _ hx,hmem⟩

theorem exists_of_resolve (h : s.resolve name = some found) :
    ∃ scope ∈ s.scopes, found.1 ∈ scope.table.symbols := by
  obtain ⟨before,scope,after,hs,hmem,_⟩ := exists_of_find h
  exact ⟨scope,by rw [hs]; simp,hmem⟩

theorem exists_of_resolveRoutine (h : s.resolveRoutine name = some found) :
    ∃ scope ∈ s.scopes, found.1 ∈ scope.table.symbols := by
  unfold resolveRoutine at h
  split at h
  · next hr =>
    cases h
    exact exists_of_resolve hr
  · exact exists_of_findRoutine h

theorem mem_outermost_of_resolve {symbol : Symbol} (h : s.resolve name = some (symbol,0)) :
    symbol ∈ s.outermost.table.symbols := by
  obtain ⟨before,scope,after,hs,hmem,hlen⟩ := exists_of_find h
  obtain rfl := List.length_eq_zero_iff.mp hlen
  obtain ⟨_,he⟩ := List.append_inj' hs rfl
  cases he
  exact hmem

end found

/-- All symbols of the open scopes have the property, whatever their lines. -/
def All (Q : Symbol → Prop) (s : ScopeStack) : Prop :=
  ∀ scope ∈ s.scopes, ∀ symbol ∈ scope.table.entries, Q symbol

namespace All

variable {Q : Symbol → Prop} {s s' : ScopeStack}

theorem of_mem (h : s.All Q) {symbol : Symbol}
    (hx : ∃ scope ∈ s.scopes, symbol ∈ scope.table.symbols) : Q symbol.forget := by
  obtain ⟨scope,hscope,hmem⟩ := hx
  exact h scope hscope _ (List.mem_map_of_mem hmem)

theorem of_forget (h : s.All Q) (he : s'.forget = s.forget) : s'.All Q := by
  intro scope hscope symbol hsymbol
  have hscope' : scope.forget ∈ s.scopes.map Scope.forget := by
    rw [← scopes_forget,← he,scopes_forget]
    exact List.mem_map_of_mem hscope
  obtain ⟨old,hold,hforget⟩ := List.mem_map.mp hscope'
  have hentries : old.table.entries = scope.table.entries := congrArg (·.table.symbols) hforget
  exact h old hold symbol (by rwa [hentries])

theorem add (h : s.All Q) {symbols : List Symbol} (hs : ∀ symbol ∈ symbols, Q symbol.forget) :
    (s.add symbols).All Q := by
  have hgrown : ∀ table : SymbolTable, (∀ symbol ∈ table.entries, Q symbol) →
      ∀ symbol ∈ SymbolTable.entries { table with symbols := table.symbols ++ symbols },
        Q symbol := by
    intro table htable symbol hsymbol
    rw [SymbolTable.entries,List.map_append,List.mem_append] at hsymbol
    rcases hsymbol with hsymbol | hsymbol
    · exact htable symbol hsymbol
    · obtain ⟨new,hnew,rfl⟩ := List.mem_map.mp hsymbol
      exact hs new hnew
  intro scope hscope
  unfold ScopeStack.add updateTop scopes at hscope
  unfold All scopes at h
  cases hi : s.inner with
  | nil =>
    simp only [hi,List.nil_append,List.mem_singleton] at hscope h
    subst hscope
    exact hgrown s.outermost.table (h _ rfl)
  | cons top rest =>
    simp only [hi,List.cons_append,List.mem_cons] at hscope h
    rcases hscope with rfl | hscope
    · exact hgrown top.table (h top (.inl rfl))
    · exact h scope (.inr hscope)

theorem push (h : s.All Q) {name : String} {discipline : Discipline} {handle : ScopeHandle}
    (hpush : s.push name discipline = (.ok handle,s')) : s'.All Q := by
  unfold ScopeStack.push at hpush
  split at hpush
  · cases hpush
  · cases hpush
    intro scope hscope symbol hsymbol
    rcases List.mem_cons.mp hscope with rfl | hscope
    · cases hsymbol
    · exact h scope hscope symbol hsymbol

theorem pop (h : s.All Q) {handle : ScopeHandle} {table : SymbolTable}
    (hpop : s.pop handle = (.ok table,s')) : s'.All Q := by
  unfold ScopeStack.pop at hpop
  split at hpop
  · cases hpop
  · next top rest hi =>
    split at hpop
    · cases hpop
      intro scope hscope
      refine h scope ?_
      rw [scopes,hi]
      exact List.mem_cons_of_mem _ hscope
    · cases hpop

theorem share (h : s.All Q) {name : String} {line : Line} {symbol : Symbol}
    (hs : s.share name line = (.ok symbol,s')) : s'.All Q := by
  obtain ⟨top,rest,_,hi,_,rfl⟩ := share_eq_ok hs
  intro scope hscope
  rcases List.mem_cons.mp hscope with rfl | hscope
  · have hentries : (top.share (s.normalize name)).table = top.table := by
      rw [Scope.share]
      split <;> rfl
    rw [hentries]
    exact h top (by rw [scopes,hi]; exact List.mem_cons_self)
  · exact h scope (by rw [scopes,hi]; exact List.mem_cons_of_mem _ hscope)

end All

/-- What lies below the scopes of routines, apart from lines: the outermost scope and the rules. -/
def ground (s : ScopeStack) : ScopeStack := { s.forget with inner := [], nextId := 0 }

section ground

variable {s s' : ScopeStack}

theorem caseSensitive_ground (s : ScopeStack) : s.ground.caseSensitive = s.caseSensitive := rfl

theorem ground_of_forget (h : s'.forget = s.forget) : s'.ground = s.ground := by
  unfold ground
  rw [h]

theorem ground_add (h : s.depth ≠ 0) (symbols : List Symbol) : (s.add symbols).ground = s.ground := by
  unfold depth at h
  unfold ground forget add updateTop
  cases hi : s.inner with
  | nil =>
    rw [hi] at h
    exact absurd rfl h
  | cons top rest => rfl

theorem ground_push {name : String} {discipline : Discipline} {handle : ScopeHandle}
    (h : s.push name discipline = (.ok handle,s')) : s'.ground = s.ground := by
  unfold push at h
  split at h <;> cases h
  rfl

theorem ground_pop {handle : ScopeHandle} {table : SymbolTable}
    (h : s.pop handle = (.ok table,s')) : s'.ground = s.ground := by
  unfold pop at h
  split at h
  · cases h
  · split at h <;> cases h
    rfl

theorem ground_share {name : String} {line : Line} {symbol : Symbol}
    (h : s.share name line = (.ok symbol,s')) : s'.ground = s.ground := by
  obtain ⟨_,_,_,_,_,rfl⟩ := share_eq_ok h
  rfl

end ground
end ScopeStack

namespace Lowering

/-- What holds of the scopes whenever a body is taken up: names are found under their keys, symbols
stand for routines that are there, and below the scopes of routines nothing has changed. -/
structure Sound (final : List RoutineCode) (ground : ScopeStack) (scopes : ScopeStack) : Prop where
  uniform : scopes.Uniform
  symbols : scopes.All (Symbol.Stands final)
  outer : scopes.ground = ground

namespace Sound

variable {final : List RoutineCode} {ground scopes scopes' : ScopeStack}

theorem mono {more : List RoutineCode} (hf : final ⊆ more) (h : Sound final ground scopes) :
    Sound more ground scopes :=
  ⟨h.uniform,fun scope hscope x hx => (h.symbols scope hscope x hx).mono hf,h.outer⟩

theorem of_forget (h : Sound final ground scopes) (he : scopes'.forget = scopes.forget)
    (ho : scopes'.outline = scopes.outline) : Sound final ground scopes' :=
  ⟨h.uniform.of_outline ho,h.symbols.of_forget he,(ScopeStack.ground_of_forget he).trans h.outer⟩

theorem add (h : Sound final ground scopes) (hd : scopes.depth ≠ 0) {symbols : List Symbol}
    (hs : ∀ symbol ∈ symbols, symbol.forget.Stands final) :
    Sound final ground (scopes.add symbols) :=
  ⟨h.uniform.of_outline (ScopeStack.outline_add _ _),h.symbols.add hs,
    (ScopeStack.ground_add hd symbols).trans h.outer⟩

theorem push (h : Sound final ground scopes) {name : String} {discipline : Discipline}
    {handle : ScopeHandle} (hp : scopes.push name discipline = (.ok handle,scopes')) :
    Sound final ground scopes' :=
  ⟨h.uniform.push hp,h.symbols.push hp,(ScopeStack.ground_push hp).trans h.outer⟩

theorem pop (h : Sound final ground scopes) {handle : ScopeHandle} {table : SymbolTable}
    (hp : scopes.pop handle = (.ok table,scopes')) : Sound final ground scopes' :=
  ⟨h.uniform.pop hp,h.symbols.pop hp,(ScopeStack.ground_pop hp).trans h.outer⟩

theorem share (h : Sound final ground scopes) {name : String} {line : Line} {symbol : Symbol}
    (hs : scopes.share name line = (.ok symbol,scopes')) : Sound final ground scopes' :=
  ⟨h.uniform.of_outline (ScopeStack.outline_share hs),h.symbols.share hs,
    (ScopeStack.ground_share hs).trans h.outer⟩

/-- Only a routine with a scope of its own declares anything. -/
theorem changes {r : Routine} {s s' : State} (h : Sound final ground s.scopes)
    (hd : s.scopes.depth = r.depth) (hs : s.Changes r s') : Sound final ground s'.scopes := by
  induction hs with
  | refl => exact h
  | tail hbefore hstep ih =>
    cases hstep with
    | touch found line =>
      exact ih.of_forget (ScopeStack.forget_touch _ found line) (ScopeStack.outline_touch _ found line)
    | share h => exact ih.share h
    | declare hr hdecl =>
      obtain ⟨new,hnew,rfl,_,rfl⟩ := declare_cases hdecl
      refine ih.add ?_ fun x hx => ?_
      · rw [ScopeStack.depth_of_outline (State.Changes.outline hbefore),hd]
        exact hr
      · rw [List.mem_singleton.mp hx]
        exact stands_declared final hnew _ _
    | label | record | temp | slot | result => exact ih

theorem mem_ground (h : Sound final ground scopes) {name : String} {symbol : Symbol}
    (hr : scopes.resolve name = some (symbol,0)) : symbol.forget ∈ ground.global.symbols := by
  rw [← h.outer]
  exact List.mem_map_of_mem (ScopeStack.mem_outermost_of_resolve hr)

end Sound
end Lowering
end StackCompiler
