import Mathlib.Data.List.Nodup
import Mathlib.Order.MinMax
import StackCompiler.Json.Fields
import StackCompiler.Proofs.JsonText

/-! Members that are left out.
An object may lack members that hold their defaults, here and in the values inside it. A reader that is
given such a value finds each member, or finds none and takes the default. -/
namespace StackCompiler.Json

mutual

def depth : Json → Nat
  | array items => itemsDepth items + 1
  | object members => membersDepth members + 1
  | null | bool _ | number _ | string _ => 0

def itemsDepth : List Json → Nat
  | [] => 0
  | item :: rest => max item.depth (itemsDepth rest)

def membersDepth : List (Text × Json) → Nat
  | [] => 0
  | (_,value) :: rest => max value.depth (membersDepth rest)

end

theorem itemsDepth_le {items : List Json} {n : Nat} :
    itemsDepth items ≤ n ↔ ∀ item ∈ items, item.depth ≤ n := by
  induction items with
  | nil => simp [itemsDepth]
  | cons item rest ih => simp [itemsDepth,ih]

theorem membersDepth_le {members : List (Text × Json)} {n : Nat} :
    membersDepth members ≤ n ↔ ∀ m ∈ members, m.2.depth ≤ n := by
  induction members with
  | nil => simp [membersDepth]
  | cons m rest ih => simp [membersDepth,ih]

theorem wellFormedItems_iff {items : List Json} :
    WellFormedItems items ↔ ∀ item ∈ items, item.WellFormed := by
  induction items with
  | nil => simp [WellFormedItems]
  | cons item rest ih => simp [WellFormedItems,ih]

theorem wellFormedMembers_iff {members : List (Text × Json)} :
    WellFormedMembers members ↔ ∀ m ∈ members, m.2.WellFormed := by
  induction members with
  | nil => simp [WellFormedMembers]
  | cons m rest ih => simp [WellFormedMembers,ih]

/-- The default of a member, by the key under which its object stands and by its own key. -/
abbrev Defaults := String → String → Option Json

section trimming

variable (defaults : Defaults)

mutual

/-- The second value is the first without some members that hold their defaults. The values stand under
the given key. -/
inductive Trimmed : String → Json → Json → Prop
  | null {parent} : Trimmed parent null null
  | bool {parent b} : Trimmed parent (bool b) (bool b)
  | number {parent n} : Trimmed parent (number n) (number n)
  | string {parent s} : Trimmed parent (string s) (string s)
  | array {parent items items'} (h : TrimmedItems parent items items') :
    Trimmed parent (array items) (array items')
  | object {parent members members'} (h : TrimmedMembers parent members members') :
    Trimmed parent (object members) (object members')

inductive TrimmedItems : String → List Json → List Json → Prop
  | nil {parent} : TrimmedItems parent [] []
  | cons {parent item item' rest rest'} (h : Trimmed parent item item')
    (hrest : TrimmedItems parent rest rest') : TrimmedItems parent (item :: rest) (item' :: rest')

inductive TrimmedMembers : String → List (Text × Json) → List (Text × Json) → Prop
  | nil {parent} : TrimmedMembers parent [] []
  | keep {parent key value value' rest rest'} (h : Trimmed (key.getD "") value value')
    (hrest : TrimmedMembers parent rest rest') :
    TrimmedMembers parent ((key,value) :: rest) ((key,value') :: rest')
  | leave {parent key value rest rest'} (h : defaults parent key = some value)
    (hrest : TrimmedMembers parent rest rest') :
    TrimmedMembers parent ((some key,value) :: rest) rest'

end

end trimming

section trimmed

variable {defaults : Defaults}

mutual

theorem Trimmed.refl : ∀ (v : Json) (parent : String), Trimmed defaults parent v v
  | .null, _ => .null
  | .bool _, _ => .bool
  | .number _, _ => .number
  | .string _, _ => .string
  | .array items, parent => .array (TrimmedItems.refl items parent)
  | .object members, parent => .object (TrimmedMembers.refl members parent)

theorem TrimmedItems.refl : ∀ (items : List Json) (parent : String),
    TrimmedItems defaults parent items items
  | [], _ => .nil
  | item :: rest, parent => .cons (Trimmed.refl item parent) (TrimmedItems.refl rest parent)

theorem TrimmedMembers.refl : ∀ (members : List (Text × Json)) (parent : String),
    TrimmedMembers defaults parent members members
  | [], _ => .nil
  | (_,value) :: rest, parent => .keep (Trimmed.refl value _) (TrimmedMembers.refl rest parent)

end

mutual

theorem Trimmed.depth_le : ∀ (v : Json) {v' : Json} {parent : String},
    Trimmed defaults parent v v' → v'.depth ≤ v.depth
  | .null, _, _, .null | .bool _, _, _, .bool | .number _, _, _, .number
  | .string _, _, _, .string => Nat.le_refl _
  | .array items, _, _, .array h => Nat.succ_le_succ (TrimmedItems.depth_le items h)
  | .object members, _, _, .object h => Nat.succ_le_succ (TrimmedMembers.depth_le members h)

theorem TrimmedItems.depth_le : ∀ (items : List Json) {items' : List Json} {parent : String},
    TrimmedItems defaults parent items items' → itemsDepth items' ≤ itemsDepth items
  | [], _, _, .nil => Nat.le_refl _
  | item :: rest, _, _, .cons h hrest =>
    max_le_max (Trimmed.depth_le item h) (TrimmedItems.depth_le rest hrest)

theorem TrimmedMembers.depth_le : ∀ (members : List (Text × Json)) {members' : List (Text × Json)}
    {parent : String}, TrimmedMembers defaults parent members members' →
    membersDepth members' ≤ membersDepth members
  | [], _, _, .nil => Nat.le_refl _
  | (_,value) :: rest, _, _, .keep h hrest =>
    max_le_max (Trimmed.depth_le value h) (TrimmedMembers.depth_le rest hrest)
  | _ :: rest, _, _, .leave _ hrest =>
    Nat.le_trans (TrimmedMembers.depth_le rest hrest) (Nat.le_max_right _ _)

end

mutual

theorem Trimmed.wellFormed : ∀ (v : Json) {v' : Json} {parent : String},
    Trimmed defaults parent v v' → v.WellFormed → v'.WellFormed
  | .null, _, _, .null, h | .bool _, _, _, .bool, h | .number _, _, _, .number, h
  | .string _, _, _, .string, h => h
  | .array items, _, _, .array h, hv => TrimmedItems.wellFormed items h hv
  | .object members, _, _, .object h, hv => TrimmedMembers.wellFormed members h hv

theorem TrimmedItems.wellFormed : ∀ (items : List Json) {items' : List Json} {parent : String},
    TrimmedItems defaults parent items items' → WellFormedItems items → WellFormedItems items'
  | [], _, _, .nil, h => h
  | item :: rest, _, _, .cons h hrest, hv =>
    ⟨Trimmed.wellFormed item h hv.1,TrimmedItems.wellFormed rest hrest hv.2⟩

theorem TrimmedMembers.wellFormed : ∀ (members : List (Text × Json)) {members' : List (Text × Json)}
    {parent : String}, TrimmedMembers defaults parent members members' →
    WellFormedMembers members → WellFormedMembers members'
  | [], _, _, .nil, h => h
  | (_,value) :: rest, _, _, .keep h hrest, hv =>
    ⟨Trimmed.wellFormed value h hv.1,TrimmedMembers.wellFormed rest hrest hv.2⟩
  | _ :: rest, _, _, .leave _ hrest, hv => TrimmedMembers.wellFormed rest hrest hv.2

end

theorem Trimmed.eq_null {parent : String} {v : Json} (h : Trimmed defaults parent v .null) :
    v = .null := by
  cases h
  rfl

inductive Kept (defaults : Defaults) (parent : String) : Fields → Fields → Prop
  | nil : Kept defaults parent [] []
  | keep {key value value' rest rest'} (h : Trimmed defaults key value value')
    (hrest : Kept defaults parent rest rest') :
    Kept defaults parent ((key,value) :: rest) ((key,value') :: rest')
  | leave {key value rest rest'} (h : defaults parent key = some value)
    (hrest : Kept defaults parent rest rest') : Kept defaults parent ((key,value) :: rest) rest'

section records

variable {parent : String} {members fs : Fields}

theorem exists_kept {members' : List (Text × Json)}
    (h : TrimmedMembers defaults parent (members.map fun m => (some m.1,m.2)) members') :
    ∃ fs : Fields, members' = fs.map (fun m => (some m.1,m.2)) ∧ Kept defaults parent members fs := by
  induction members generalizing members' with
  | nil =>
    cases h
    exact ⟨[],rfl,.nil⟩
  | cons m rest ih =>
    cases h with
    | keep h hrest =>
      obtain ⟨fs,rfl,hkept⟩ := ih hrest
      exact ⟨(m.1,_) :: fs,rfl,.keep h hkept⟩
    | leave h hrest =>
      obtain ⟨fs,rfl,hkept⟩ := ih hrest
      exact ⟨fs,rfl,.leave h hkept⟩

theorem Kept.keys (h : Kept defaults parent members fs) :
    (fs.map Prod.fst).Sublist (members.map Prod.fst) := by
  induction h with
  | nil => exact .slnil
  | keep _ _ ih => exact ih.cons_cons _
  | leave _ _ ih => exact ih.cons _

/-- A member is found, with members left out of it, or it held its default. -/
theorem Kept.lookup (h : Kept defaults parent members fs) (hkeys : (members.map Prod.fst).Nodup)
    {key : String} {value : Json} (hvalue : members.lookup key = some value) :
    (∃ value', fs.lookup key = some value' ∧ Trimmed defaults key value value') ∨
      fs.lookup key = none ∧ defaults parent key = some value := by
  induction h with
  | nil => cases hvalue
  | @keep key' _ _ rest rest' h hrest ih =>
    rw [List.map_cons,List.nodup_cons] at hkeys
    rw [List.lookup_cons] at hvalue ⊢
    cases hkey : key == key' with
    | true =>
      rw [hkey] at hvalue
      cases hvalue
      rw [beq_iff_eq] at hkey
      exact .inl ⟨_,rfl,hkey ▸ h⟩
    | false =>
      rw [hkey] at hvalue
      exact ih hkeys.2 hvalue
  | @leave key' _ rest rest' h hrest ih =>
    rw [List.map_cons,List.nodup_cons] at hkeys
    rw [List.lookup_cons] at hvalue
    cases hkey : key == key' with
    | true =>
      rw [hkey] at hvalue
      cases hvalue
      rw [beq_iff_eq] at hkey
      refine .inr ⟨?_,hkey ▸ h⟩
      rw [List.lookup_eq_none_iff]
      intro m hm
      rw [bne_iff_ne,hkey]
      intro heq
      have hmem : m.1 ∈ rest.map Prod.fst := hrest.keys.subset (List.mem_map_of_mem hm)
      rw [← heq] at hmem
      exact hkeys.1 hmem
    | false =>
      rw [hkey] at hvalue
      exact ih hkeys.2 hvalue

structure Opened (defaults : Defaults) (parent : String) (members fs : Fields) (n : Levels) : Prop where
  kept : Kept defaults parent members fs
  keys : (members.map Prod.fst).Nodup
  depth : ∀ m ∈ fs, m.2.depth ≤ n

theorem Trimmed.opened {v : Json} {n : Levels} (h : Trimmed defaults parent (record members) v)
    (hdepth : v.depth ≤ n) (hkeys : (members.map Prod.fst).Nodup) :
    ∃ (fs : Fields) (k : Levels), v = record fs ∧ n = k + 1 ∧ Opened defaults parent members fs k := by
  unfold record at h
  cases h with
  | object h =>
    obtain ⟨fs,rfl,hkept⟩ := exists_kept h
    obtain ⟨k,rfl⟩ := Nat.exists_eq_add_one_of_ne_zero (Nat.ne_zero_of_lt hdepth)
    refine ⟨fs,k,rfl,rfl,hkept,hkeys,fun m hm => ?_⟩
    exact membersDepth_le.mp (Nat.le_of_succ_le_succ hdepth) _ (List.mem_map_of_mem hm)

/-- A value is read back, whatever members are left out of what is written for it. -/
def Restores (defaults : Defaults) {α : Type} (write : α → Json) (read : Levels → Json → Option α)
    (a : α) : Prop :=
  ∀ ⦃parent : String⦄ ⦃v : Json⦄ ⦃n : Levels⦄, Trimmed defaults parent (write a) v → v.depth ≤ n →
    read n v = some a

theorem Restores.injective {α : Type} {write : α → Json} {read : Levels → Json → Option α} {a b : α}
    (ha : Restores defaults write read a) (hb : Restores defaults write read b)
    (h : write a = write b) : a = b := by
  have hread := ha (Trimmed.refl (write a) "") (Nat.le_refl _)
  rw [h,hb (Trimmed.refl (write b) "") (Nat.le_refl _)] at hread
  exact (Option.some.inj hread).symm

namespace Opened

variable {n : Levels} {α : Type} {write : α → Json} {read : Levels → Json → Option α} {a : α}

theorem fields? (h : Opened defaults parent members fs n) (known : List String) :
    Json.fields? known (record fs) = some fs := by
  have hmembers : (fs.map fun m => (some m.1,m.2)).mapM (fun m : Text × Json => m.1.map (·,m.2)) =
      some fs := by
    clear h
    induction fs with
    | nil => rfl
    | cons m rest ih => simp [List.mapM_cons,ih]
  have hkeys : (fs.map Prod.fst).Nodup := h.kept.keys.nodup h.keys
  have hcount : ∀ k, fs.countP (·.1 == k) ≤ 1 := by
    intro k
    have hk := List.nodup_iff_count_le_one.mp hkeys k
    rwa [List.count,List.countP_map] at hk
  unfold Json.fields? record
  simp only [hmembers,Option.bind_eq_bind,Option.bind_some]
  rw [if_pos]
  simp [hcount]

theorem depth_of_lookup (h : Opened defaults parent members fs n) {key : String} {v : Json}
    (hv : fs.lookup key = some v) : v.depth ≤ n := by
  obtain ⟨before,after,rfl,_⟩ := List.lookup_eq_some_iff.mp hv
  exact h.depth _ (List.mem_append_right _ List.mem_cons_self)

theorem required (h : Opened defaults parent members fs n) (key : String)
    (hread : Restores defaults write read a) (hvalue : members.lookup key = some (write a))
    (hkey : defaults parent key = none) :
    fs.required key (read n) = some a := by
  unfold Fields.required
  rcases h.kept.lookup h.keys hvalue with ⟨v,hv,htrimmed⟩ | ⟨_,hdefault⟩
  · rw [hv]
    exact hread htrimmed (h.depth_of_lookup hv)
  · cases hkey.symm.trans hdefault

/-- A member that was left out held its default, as no other value is written like it. -/
theorem optional (h : Opened defaults parent members fs n) (key : String)
    (hread : Restores defaults write read a) (hvalue : members.lookup key = some (write a)) {default : α}
    (hdefault : Restores defaults write read default)
    (hkey : ∀ v, defaults parent key = some v → v = write default) :
    fs.optional key default (read n) = some a := by
  unfold Fields.optional
  rcases h.kept.lookup h.keys hvalue with ⟨v,hv,htrimmed⟩ | ⟨hnone,hleft⟩
  · rw [hv]
    exact hread htrimmed (h.depth_of_lookup hv)
  · rw [hnone,hread.injective hdefault (hkey _ hleft)]

theorem nullable {a : Option α} (h : Opened defaults parent members fs n) (key : String)
    (hread : ∀ x, a = some x → Restores defaults write read x)
    (hvalue : members.lookup key = some (option write a)) (hwrite : ∀ x, write x ≠ null)
    (hkey : ∀ v, defaults parent key = some v → v = null) :
    fs.nullable key (read n) = some a := by
  unfold Fields.nullable
  rcases h.kept.lookup h.keys hvalue with ⟨v,hv,htrimmed⟩ | ⟨hnone,hdefault⟩
  · rw [hv]
    cases a with
    | none =>
      cases htrimmed
      rfl
    | some x =>
      have hsome := hread x rfl htrimmed (h.depth_of_lookup hv)
      cases v with
      | null => cases hwrite x htrimmed.eq_null
      | _ => exact congrArg (Option.map some) hsome
  · rw [hnone]
    cases a with
    | none => rfl
    | some x => exact absurd (hkey _ hdefault) (hwrite x)

end Opened

theorem Trimmed.single {key : String} {content v : Json} {n : Levels}
    (h : Trimmed defaults parent (record [(key,content)]) v) (hdepth : v.depth ≤ n)
    (hkey : defaults parent key = none) :
    ∃ content' k, v = .object [(some key,content')] ∧ n = k + 1 ∧
      Trimmed defaults key content content' ∧ content'.depth ≤ k := by
  obtain ⟨fs,k,rfl,rfl,ho⟩ := h.opened hdepth (List.nodup_singleton _)
  cases ho.kept with
  | keep hcontent hrest =>
    cases hrest
    exact ⟨_,k,rfl,rfl,hcontent,ho.depth _ List.mem_cons_self⟩
  | leave hdefault => cases hkey.symm.trans hdefault

theorem Trimmed.nested {key : String} {v : Json} {n : Levels}
    (h : Trimmed defaults parent (record [(key,record members)]) v) (hdepth : v.depth ≤ n)
    (hkey : defaults parent key = none) (hkeys : (members.map Prod.fst).Nodup) :
    ∃ (fs : Fields) (k : Levels), v = .object [(some key,record fs)] ∧ n = k + 2 ∧
      Opened defaults key members fs k := by
  obtain ⟨content,k,rfl,rfl,hcontent,hk⟩ := h.single hdepth hkey
  obtain ⟨fs,k,rfl,rfl,ho⟩ := hcontent.opened hk hkeys
  exact ⟨fs,k,rfl,rfl,ho⟩

end records

section leaves

variable {α : Type}

theorem restores_str (s : String) : Restores defaults str (fun _ => text?) s := by
  intro parent v n h _
  cases h
  rfl

theorem restores_bool (b : Bool) : Restores defaults bool (fun _ => bool?) b := by
  intro parent v n h _
  cases h
  rfl

theorem restores_oneOf {table : List (String × α)} {write : α → Json} {a : α} {name : String}
    (hwrite : write a = str name) (h : table.lookup name = some a) :
    Restores defaults write (oneOf? table) a := by
  intro parent v n htrimmed _
  rw [hwrite] at htrimmed
  cases htrimmed
  unfold oneOf?
  cases n <;> exact h

theorem intIn?_int {least most n : Int} (h : least ≤ n ∧ n ≤ most) :
    (int n).intIn? least most = some n := by
  unfold int intIn?
  simp only [Number.toInt?_ofInt]
  simp [h]

theorem restores_int32 (n : Int32) :
    Restores defaults (fun n : Int32 => int n.toInt) (fun _ => int32?) n := by
  intro parent v k h _
  cases h
  change ((int n.toInt).intIn? _ _).map Int32.ofInt = _
  rw [intIn?_int ⟨n.minValue_le_toInt,n.toInt_le⟩,Option.map_some,Int32.ofInt_toInt]

theorem restores_int64 (n : Int64) :
    Restores defaults (fun n : Int64 => int n.toInt) (fun _ => int64?) n := by
  intro parent v k h _
  cases h
  change ((int n.toInt).intIn? _ _).map Int64.ofInt = _
  rw [intIn?_int ⟨n.minValue_le_toInt,n.toInt_le⟩,Option.map_some,Int64.ofInt_toInt]

theorem restores_uint64 (n : UInt64) :
    Restores defaults (fun n : UInt64 => nat n.toNat) (fun _ => uint64?) n := by
  intro parent v k h _
  cases h
  have hbounds : (0 : Int) ≤ n.toNat ∧ (n.toNat : Int) ≤ (UInt64.size - 1 : Nat) := by
    have := n.toNat_lt
    constructor
    · exact Int.natCast_nonneg _
    · exact Int.ofNat_le.mpr (Nat.le_sub_one_of_lt this)
  change ((int n.toNat).intIn? _ _).map _ = _
  rw [intIn?_int hbounds,Option.map_some,Int.toNat_natCast]
  exact congrArg some UInt64.ofNat_toNat

theorem restores_list {write : α → Json} {read : Levels → Json → Option α} {xs : List α}
    (h : ∀ x ∈ xs, Restores defaults write read x) : Restores defaults (list write) (list? read) xs := by
  intro parent v n htrimmed hdepth
  unfold list at htrimmed
  cases htrimmed with
  | @array _ _ items hitems =>
    obtain ⟨k,rfl⟩ := Nat.exists_eq_add_one_of_ne_zero (Nat.ne_zero_of_lt hdepth)
    replace hdepth := itemsDepth_le.mp (Nat.le_of_succ_le_succ hdepth)
    rw [list?]
    induction xs generalizing items with
    | nil =>
      cases hitems
      rfl
    | cons x rest ih =>
      cases hitems with
      | @cons _ _ item _ items hitem hrest =>
        have hx : read k item = some x := h x List.mem_cons_self hitem (hdepth item List.mem_cons_self)
        have hxs : items.mapM (read k) = some rest :=
          ih (fun y hy => h y (List.mem_cons_of_mem _ hy)) hrest
            fun y hy => hdepth y (List.mem_cons_of_mem _ hy)
        rw [List.mapM_cons,hx,hxs]
        rfl

/-- The same, for functions of their own that write and read lists. -/
theorem restores_array {write : α → Json} {read : Levels → Json → Option α}
    {writeAll : List α → List Json} {readAll : Levels → Json → Option (List α)}
    (hwrite : ∀ xs, writeAll xs = xs.map write) (hread : ∀ n v, readAll n v = list? read n v)
    {xs : List α} (h : ∀ x ∈ xs, Restores defaults write read x) :
    Restores defaults (fun xs => array (writeAll xs)) readAll xs := by
  intro parent v n htrimmed hdepth
  simp only [hwrite] at htrimmed
  rw [hread]
  exact restores_list h htrimmed hdepth

theorem restores_nil {write : α → Json} {read : Levels → Json → Option α} :
    Restores defaults (list write) (list? read) [] :=
  restores_list (by simp)

end leaves

end trimmed

end StackCompiler.Json
