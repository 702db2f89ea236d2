import StackCompiler.Proofs.Contexts

/-! The types of the slots of a routine.
A named slot belongs to one parameter or variable of the routine's own scope, whose type it has, or it
takes the result. Since names are looked up in the frame, the two must not have the same name. -/
namespace StackCompiler

namespace Frame

def type? (f : Frame) (n : Slot) : Option Ty := f[n]?.map SlotInfo.type

theorem type?_push (f : Frame) (type : Ty) (kind : SlotKind) (names : List String) :
    (f.push type kind names).type? f.length = some type := by
  simp [type?,push]

theorem type?_of_le {f g : Frame} (h : f <+: g) {n : Slot} {t : Ty} (ht : f.type? n = some t) :
    g.type? n = some t := by
  obtain ⟨info,hn,rfl⟩ := Option.map_eq_some_iff.mp ht
  obtain ⟨more,rfl⟩ := h
  rw [type?,List.getElem?_append_left (List.getElem?_eq_some_iff.mp hn).1,hn]
  rfl

theorem Grows.type? {f g : Frame} (h : f.Grows g) {n : Slot} {t : Ty} (ht : f.type? n = some t) :
    g.type? n = some t :=
  type?_of_le h.slots ht

end Frame

namespace Lowering

open Lower

def State.Stores (s : State) (x : Symbol) : Prop :=
  x ∈ s.scopes.current.entries ∧ x.hasStorage = true

/-- The slot is that of a parameter or variable of the innermost scope, or takes the result; it has the
type that is due to it. -/
def State.Houses (r : Routine) (s : State) (name : String) (n : Slot) : Prop :=
  (∃ x, s.Stores x ∧ x.key = name ∧ s.frame.type? n = some x.type) ∨
    r.resultName = some name ∧ s.frame.type? n = some (.scalar r.returns)

/-- In the scope of the routine no two symbols have one key, and every named slot has its type. -/
structure State.Housed (r : Routine) (s : State) : Prop where
  depth : s.scopes.depth = r.depth
  indexed : s.frame.Indexed
  distinct : (s.scopes.current.entries.map Symbol.key).Nodup
  named : ∀ {name : String} {n : Slot}, s.frame.slot? name = some n → s.Houses r name n

/-- No parameter or variable of the innermost scope has the name of the result. -/
def State.Free (r : Routine) (s : State) : Prop :=
  ∀ x, s.Stores x → r.resultName ≠ some x.key

/-- Where the routine's own name is read, it has the type of the result. -/
def State.ReadsResult (r : Routine) (s : State) : Prop :=
  ∀ {name : String} {found : Symbol × Nat}, s.scopes.resolve name = some found →
    found.1.cls = .function → r.resultName = some found.1.key → found.1.type = .scalar r.returns

section housed

variable {r : Routine} {s s' : State} {x : Symbol}

theorem eq_of_key {xs : List Symbol} (h : (xs.map Symbol.key).Nodup) {x y : Symbol} (hx : x ∈ xs)
    (hy : y ∈ xs) (hk : x.key = y.key) : x = y :=
  List.inj_on_of_nodup_map h hx hy hk

theorem State.Housed.type?_stored (h : s.Housed r) (hx : s.Stores x)
    (hfree : r.resultName ≠ some x.key) :
    (s.frame.localVar x.key x.type).2.type? (s.frame.localVar x.key x.type).1 = some x.type := by
  unfold Frame.localVar
  cases hs : s.frame.slot? x.key with
  | none => exact Frame.type?_push _ _ _ _
  | some n =>
    rcases h.named hs with ⟨y,hy,hkey,htype⟩ | ⟨hresult,_⟩
    · rw [← eq_of_key h.distinct hy.1 hx.1 hkey]
      exact htype
    · exact absurd hresult hfree

theorem State.Housed.type?_result (h : s.Housed r) (hfree : s.Free r) {name : String}
    (hname : r.resultName = some name) :
    (s.frame.localVar name (.scalar r.returns)).2.type?
      (s.frame.localVar name (.scalar r.returns)).1 = some (.scalar r.returns) := by
  unfold Frame.localVar
  cases hs : s.frame.slot? name with
  | none => exact Frame.type?_push _ _ _ _
  | some n =>
    rcases h.named hs with ⟨y,hy,rfl,_⟩ | ⟨_,htype⟩
    · exact absurd hname (hfree y hy)
    · exact htype

/-- A longer frame and more symbols change nothing for the slots that are there. -/
theorem State.Houses.mono {name : String} {n : Slot} (h : s.Houses r name n)
    (hframe : s.frame.Grows s'.frame)
    (hsymbols : s.scopes.current.entries ⊆ s'.scopes.current.entries) : s'.Houses r name n := by
  rcases h with ⟨x,⟨hmem,hstorage⟩,hkey,htype⟩ | ⟨hresult,htype⟩
  · exact .inl ⟨x,⟨hsymbols hmem,hstorage⟩,hkey,hframe.type? htype⟩
  · exact .inr ⟨hresult,hframe.type? htype⟩

/-- A slot by name keeps the slots in order if it has the type that is due to it. -/
theorem State.Housed.withLocal (h : s.Housed r) {name : String} {type : Ty}
    (hnew : (s.withLocal name type).Houses r name (s.frame.localVar name type).1) :
    (s.withLocal name type).Housed r := by
  have hgrows := Frame.grows_localVar s.frame name type
  refine ⟨h.depth,hgrows.indexed h.indexed,h.distinct,fun {other n} hn => ?_⟩
  by_cases he : other = name
  · rw [he] at hn ⊢
    have hslot := (Frame.slot?_localVar s.frame name type).symm.trans hn
    rwa [← Option.some.inj hslot]
  · have hold : s.frame.slot? other = some n := by
      change (s.frame.localVar name type).2.slot? other = some n at hn
      unfold Frame.localVar at hn
      split at hn
      · exact hn
      · rwa [Frame.slot?_push,if_neg fun hc => he (List.singleton_inj.mp hc).symm] at hn
    exact (h.named hold).mono hgrows (List.Subset.refl _)

theorem State.Housed.withStored (h : s.Housed r) (hx : s.Stores x)
    (hfree : r.resultName ≠ some x.key) : (s.withLocal x.key x.type).Housed r :=
  h.withLocal (.inl ⟨x,hx,rfl,h.type?_stored hx hfree⟩)

theorem State.Housed.withResult (h : s.Housed r) (hfree : s.Free r) {name : String}
    (hname : r.resultName = some name) : (s.withLocal name (.scalar r.returns)).Housed r :=
  h.withLocal (.inr ⟨hname,h.type?_result hfree hname⟩)

theorem State.Housed.temp (h : s.Housed r) (type : Ty) :
    State.Housed r { s with frame := s.frame.temp type } := by
  have hgrows := Frame.grows_temp s.frame type
  refine ⟨h.depth,hgrows.indexed h.indexed,h.distinct,fun {name n} hn => ?_⟩
  refine State.Houses.mono (h.named ?_) hgrows (List.Subset.refl _)
  change (s.frame.temp type).slot? name = some n at hn
  rwa [Frame.temp,Frame.slot?_push,if_neg (List.cons_ne_nil _ _).symm] at hn

theorem State.Housed.withScopes (h : s.Housed r) {scopes : ScopeStack}
    (hdepth : scopes.depth = s.scopes.depth)
    (hentries : scopes.current.entries = s.scopes.current.entries) :
    State.Housed r { s with scopes } := by
  refine ⟨hdepth.trans h.depth,h.indexed,?_,fun hn => ?_⟩
  · rw [show State.scopes { s with scopes } = scopes from rfl,hentries]
    exact h.distinct
  · exact (h.named hn).mono (.refl _) (hentries ▸ List.Subset.refl _)

end housed

theorem entries_add (scopes : ScopeStack) (symbols : List Symbol) :
    (scopes.add symbols).current.entries =
      scopes.current.entries ++ symbols.map Symbol.forget := by
  rw [ScopeStack.current_add,SymbolTable.entries,List.map_append]
  rfl

theorem keys_entries (t : SymbolTable) :
    t.entries.map Symbol.key = t.symbols.map Symbol.key := by
  rw [SymbolTable.entries,List.map_map]
  rfl

theorem entries_share {scopes scopes' : ScopeStack} {name : String} {line : Line} {symbol : Symbol}
    (h : scopes.share name line = (.ok symbol,scopes')) :
    scopes'.current.entries = scopes.current.entries := by
  obtain ⟨top,rest,_,hi,_,rfl⟩ := ScopeStack.share_eq_ok h
  have htable : (top.share (scopes.normalize name)).table = top.table := by
    rw [Scope.share]
    split <;> rfl
  change (top.share (scopes.normalize name)).table.entries = _
  rw [htable,ScopeStack.current,ScopeStack.top,hi]
  rfl

section changes

variable {r : Routine} {D : Declaration → Prop} {s s' : State}

theorem State.Housed.declare (h : s.Housed r) {d : Declaration} {symbol : Symbol}
    {scopes : ScopeStack} (hd : Lowering.declare d s.scopes = (.ok symbol,scopes)) :
    State.Housed r { s with scopes } := by
  obtain ⟨new,_,rfl,hl,rfl⟩ := declare_cases hd
  have hdistinct : s.scopes.current.Distinct := by
    rw [SymbolTable.Distinct,← keys_entries]
    exact h.distinct
  refine ⟨(ScopeStack.depth_add _ _).trans h.depth,h.indexed,?_,fun hn => ?_⟩
  · rw [show State.scopes { s with scopes := s.scopes.add _ } = s.scopes.add _ from rfl,
      ScopeStack.current_add,keys_entries]
    exact hdistinct.add hl
  · refine (h.named hn).mono (.refl _) ?_
    rw [show State.scopes { s with scopes := s.scopes.add _ } = s.scopes.add _ from rfl,entries_add]
    exact List.subset_append_left _ _

theorem State.Changes.entries (h : s.Changes r s') :
    s.scopes.current.entries ⊆ s'.scopes.current.entries := by
  induction h with
  | refl => exact List.Subset.refl _
  | tail _ hstep ih =>
    refine List.Subset.trans ih ?_
    cases hstep with
    | touch found line =>
      exact ScopeStack.entries_current_touch _ found line ▸ List.Subset.refl _
    | share h => exact entries_share h ▸ List.Subset.refl _
    | declare _ h =>
      obtain ⟨_,_,_,_,rfl⟩ := declare_cases h
      simp only [entries_add]
      exact List.subset_append_left _ _
    | label | record | temp | slot | result => exact List.Subset.refl _

theorem State.Free.of_changes (h : s'.Free r) (hs : s.Changes r s') : s.Free r :=
  fun x hx => h x ⟨hs.entries hx.1,hx.2⟩

theorem State.Housed.change (h : s.Housed r) (hs : State.Change r (fun _ => True) s s')
    (hfree : s'.Free r) : s'.Housed r := by
  have hfree' := hfree.of_changes (.single hs)
  cases hs with
  | label => exact ⟨h.depth,h.indexed,h.distinct,h.named⟩
  | record => exact ⟨h.depth,h.indexed,h.distinct,h.named⟩
  | touch found line =>
    exact h.withScopes (ScopeStack.depth_touch _ found line)
      (ScopeStack.entries_current_touch _ found line)
  | share hshare =>
    exact h.withScopes (ScopeStack.depth_of_outline (ScopeStack.outline_share hshare))
      (entries_share hshare)
  | declare _ hd => exact h.declare hd
  | temp type => exact h.temp type
  | @slot symbol hsymbol howns =>
    have hx : s.Stores symbol.forget := ⟨howns h.depth,hsymbol⟩
    exact State.Housed.withStored (x := symbol.forget) h hx (hfree' _ hx)
  | result hname => exact h.withResult hfree' hname

theorem State.Housed.changes (h : s.Housed r) (hs : s.Changes r s') (hfree : s'.Free r) :
    s'.Housed r := by
  induction hs with
  | refl => exact h
  | tail _ hstep ih => exact (ih (hfree.of_changes (.single hstep))).change hstep hfree

/-- A slot that the lowering comes across has the type it is used at. -/
theorem Found.type? {n : Slot} {type : Ty} (h : Found r D s (.slot n) type s') (hs : s.Housed r)
    (hfree : s'.Free r) (hread : s.ReadsResult r) : s'.frame.type? n = some type := by
  have hchanges := h.changes
  generalize hp : Place.slot n = p at h
  cases h with
  | @stored _ name line found _ hr hst hplace =>
    rcases gives_place.mp hplace with ⟨_,rfl,_⟩ | ⟨_,hdepth,rfl,rfl⟩
    · cases hp
    · cases hp
      obtain ⟨symbol,depth⟩ := found
      obtain rfl : depth = s.scopes.depth := hdepth.trans hs.depth.symm
      have hx : s.Stores symbol.forget := ⟨ScopeStack.owns_of_resolve hr,hst⟩
      exact hs.type?_stored (x := symbol.forget) hx (hfree.of_changes hchanges _ hx)
  | @array d symbol scopes hr hd hn =>
    cases hp
    obtain ⟨hmem,hcls⟩ := declare_eq_ok hd
    have hvariable : d.cls = .variable := by
      simp only [needsRoom,Bool.and_eq_true,beq_iff_eq] at hn
      exact hn.1
    have hx : State.Stores { s with scopes } symbol.forget := by
      refine ⟨List.mem_map_of_mem hmem,?_⟩
      simp [Symbol.hasStorage,Symbol.forget,hcls,hvariable]
    exact (hs.declare hd).type?_stored (x := symbol.forget) hx (hfree _ hx)
  | room => cases hp
  | temp t =>
    cases hp
    exact Frame.type?_push _ _ _ _
  | result hname =>
    cases hp
    exact hs.type?_result (hfree.of_changes hchanges) hname
  | @resultRead name line found hr hc hname =>
    cases hp
    rw [hread hr hc hname]
    exact hs.type?_result (hfree.of_changes hchanges) hname

/-- All slots that the lowering comes across have in the last frame the types they are used at. -/
theorem slots_typed (hs : s.Housed r) (hfree : s'.Free r)
    (hread : ∀ {t : State}, s.Changes r t → t.ReadsResult r) :
    Slots (fun n t => s'.frame.type? n = some t) r D s s' := by
  intro t t' n type hbefore hf hafter
  have hfree' := hfree.of_changes hafter
  have hbetween : t.Free r := hfree'.of_changes hf.changes
  have htype := hf.type? (hs.changes hbefore hbetween) hfree' (hread hbefore)
  exact (State.Changes.frame hafter).type? htype

end changes

section start

theorem named_paramFrame (t : SymbolTable) {all params : List Param} (hsub : params ⊆ all)
    {frame : Frame} (h : ∀ {name : String} {n : Slot}, frame.slot? name = some n →
      ∃ y ∈ all, (t.keyed y.symbol).key = name ∧ frame.type? n = some y.type) {name : String}
    {n : Slot} (hn : (paramFrame t frame params).slot? name = some n) :
    ∃ y ∈ all, (t.keyed y.symbol).key = name ∧
      (paramFrame t frame params).type? n = some y.type := by
  induction params generalizing frame with
  | nil => exact h hn
  | cons x rest ih =>
    obtain ⟨hx,hrest⟩ := List.cons_subset.mp hsub
    refine ih hrest (fun {name n} hn => ?_) hn
    change (frame.push _ _ [(t.keyed x.symbol).key]).slot? name = some n at hn
    rw [Frame.slot?_push] at hn
    split at hn
    · next hname =>
      cases hn
      exact ⟨x,hx,List.singleton_inj.mp hname,Frame.type?_push _ _ _ _⟩
    · obtain ⟨y,hy,hkey,htype⟩ := h hn
      exact ⟨y,hy,hkey,Frame.type?_of_le (List.prefix_append _ _) htype⟩

theorem Prepared.housed_start {language : Language} {entry : String} {x : StackCompiler.Routine}
    {p : Progress} (b : Prepared language entry x p) : b.start.Housed b.routine := by
  refine ⟨b.depth_start,indexed_paramFrame _ _ _ Frame.indexed_nil,?_,fun hn => .inl ?_⟩
  · rw [keys_entries]
    exact b.distinct
  · obtain ⟨y,hy,hkey,htype⟩ := named_paramFrame b.scopes.current (List.Subset.refl _)
      (fun hn => by cases hn) hn
    refine ⟨(b.scopes.current.keyed y.symbol).forget,⟨List.mem_map_of_mem ?_,rfl⟩,hkey,htype⟩
    change _ ∈ (b.scopes.add _).current.symbols
    rw [ScopeStack.current_add]
    refine List.mem_append_right _ (List.mem_append_left _ (List.mem_append_left _ ?_))
    exact List.mem_map_of_mem hy

theorem PreparedMain.housed_start {u : SourceUnit} {p : Progress} (b : PreparedMain u p)
    (hdepth : b.start.scopes.depth = 0) : b.start.Housed b.routine := by
  refine ⟨hdepth,Frame.indexed_nil,?_,fun hn => by cases hn⟩
  rw [keys_entries]
  exact b.distinct

end start

section unnamed

variable {r : Routine} {D : Declaration → Prop} {s s' : State}

theorem slots_unnamed (hs : s.Housed r) (hr : r.resultName = none) :
    Slots (fun n t => s'.frame.type? n = some t) r D s s' := by
  have hnone : ∀ key, r.resultName ≠ some key := by
    rw [hr]
    exact fun _ => nofun
  intro t t' n type
  exact slots_typed hs (fun x _ => hnone x.key) fun _ _ _ _ _ hname => absurd hname (hnone _)

end unnamed

end Lowering
end StackCompiler
