import Mathlib.Data.Nat.Init
import StackCompiler.Json.Reader
import StackCompiler.Json.Writer

/-! Written JSON is read back.
The text of a value is read as that value, if its numbers are well-formed tokens. The bound on the
nesting of calls suffices, as each of them but every third consumes a character. -/
namespace StackCompiler.Json

open Reader Writer

structure Number.WellFormed (n : Number) : Prop where
  whole : ∀ d ∈ n.whole, d < 10
  whole_ne_nil : n.whole ≠ []
  leading : ∀ d ds, n.whole ≠ 0 :: d :: ds
  fraction : ∀ ds, n.fraction = some ds → ds ≠ [] ∧ ∀ d ∈ ds, d < 10

namespace Number

theorem digits_of_lt {n : Nat} (h : n < 10) : digits n = [n] := by
  unfold digits
  rw [Nat.toDigits_of_lt_base h]
  exact congrArg (fun d => [d]) (Nat.toNat_digitChar_sub_48_of_lt_ten h)

theorem digits_of_le {n : Nat} (h : 10 ≤ n) : digits n = digits (n / 10) ++ [n % 10] := by
  have hlast := Nat.toNat_digitChar_sub_48_of_lt_ten (Nat.mod_lt n (by decide : 0 < 10))
  unfold digits
  rw [Nat.toDigits_of_base_le (by decide) h,List.map_append]
  exact congrArg (fun d => _ ++ [d]) hlast

theorem ofDigits_digits (n : Nat) : ofDigits (digits n) = n := by
  unfold ofDigits digits
  rw [List.foldl_map]
  exact Nat.ofDigitChars_toDigits (by decide) (by decide)

theorem lt_of_mem_digits (n : Nat) : ∀ d ∈ digits n, d < 10 := by
  induction n using Nat.strong_induction_on with
  | _ n ih =>
    by_cases h : n < 10
    · simp [digits_of_lt h,h]
    · intro d hd
      rw [digits_of_le (by omega),List.mem_append] at hd
      rcases hd with hd | hd
      · exact ih (n / 10) (by omega) d hd
      · rw [List.mem_singleton.mp hd]
        exact Nat.mod_lt n (by decide)

theorem digits_ne_nil (n : Nat) : digits n ≠ [] := by
  unfold digits
  simp

theorem head_digits (n : Nat) (h : (digits n).head? = some 0) : n = 0 := by
  induction n using Nat.strong_induction_on with
  | _ n ih =>
    by_cases hn : n < 10
    · simpa [digits_of_lt hn] using h
    · obtain ⟨d,ds,hd⟩ := List.exists_cons_of_ne_nil (digits_ne_nil (n / 10))
      rw [digits_of_le (by omega),hd] at h
      have hzero := ih (n / 10) (by omega) (by rw [hd]; exact h)
      omega

theorem wellFormed_digits (negative : Bool) (n : Nat) (exponent : Option Int) :
    WellFormed { negative, whole := digits n, exponent } where
  whole := lt_of_mem_digits n
  whole_ne_nil := digits_ne_nil n
  leading d ds h := by
    cases head_digits n (by rw [show digits n = _ from h]; rfl)
    cases h
  fraction ds h := by cases h

theorem toInt?_ofInt (n : Int) : (ofInt n).toInt? = some n := by
  unfold toInt? ofInt
  simp only [ofDigits_digits,Option.isSome_none,Bool.or_self,Bool.false_eq_true,if_false,
    decide_eq_true_eq]
  by_cases h : n < 0
  · rw [if_pos h,if_neg (by omega)]
    exact congrArg some (by omega)
  · rw [if_neg h]
    exact congrArg some (by omega)

end Number

section numbers

theorem digit_digitChar : ∀ d < 10, digit (Char.ofNat ('0'.toNat + d)) = d ∧
    (Char.ofNat ('0'.toNat + d)).isDigit = true := by
  decide

def NoDigit (cs : List Char) : Prop := ∀ c ∈ cs.head?, c.isDigit = false

theorem digits_digitsText {ds : List Nat} (hds : ∀ d ∈ ds, d < 10) {rest : List Char}
    (hrest : NoDigit rest) : Reader.digits (digitsText ds ++ rest) = (ds,rest) := by
  induction ds with
  | nil =>
    cases rest with
    | nil => rfl
    | cons c rest =>
      have hc : c.isDigit = false := hrest c rfl
      simp [Reader.digits,digitsText,hc]
  | cons d ds ih =>
    obtain ⟨hdigit,hc⟩ := digit_digitChar d (hds d List.mem_cons_self)
    have ih := ih fun d hd => hds d (List.mem_cons_of_mem _ hd)
    unfold Reader.digits digitsText at ih ⊢
    rw [Prod.mk.injEq] at ih
    simp only [List.map_cons,List.cons_append,List.takeWhile_cons,List.dropWhile_cons,hc,if_true,
      hdigit,ih.1,ih.2]

/-- What follows a value: the end, a comma or a closing bracket or brace. -/
def Ends (cs : List Char) : Prop := ∀ c ∈ cs.head?, c = ',' ∨ c = ']' ∨ c = '\x7d'

theorem Ends.noDigit {cs : List Char} (h : Ends cs) : NoDigit cs := by
  intro c hc
  rcases h c hc with rfl | rfl | rfl <;> decide

def fractionText : Option (List Nat) → List Char
  | none => []
  | some ds => '.' :: digitsText ds

def exponentText : Option Int → List Char
  | none => []
  | some e => 'e' :: (toString e).toList

theorem digitChar_digit {c : Char} (h : c.isDigit = true) :
    Char.ofNat ('0'.toNat + (c.toNat - '0'.toNat)) = c := by
  rw [Nat.add_sub_of_le (Char.isDigit_iff_toNat.mp h).1,Char.ofNat_toNat]

theorem head_digitsText {ds : List Nat} (hne : ds ≠ []) (hds : ∀ d ∈ ds, d < 10) (rest : List Char) :
    ∃ c ∈ (digitsText ds ++ rest).head?, c.isDigit = true := by
  cases ds with
  | nil => exact absurd rfl hne
  | cons d => exact ⟨_,rfl,(digit_digitChar d (hds d List.mem_cons_self)).2⟩

theorem repr_toList (n : Nat) : n.repr.toList = digitsText (Number.digits n) := by
  rw [Nat.repr_eq_ofList_toDigits,String.toList_ofList,digitsText,Number.digits,List.map_map]
  have hsame : ∀ c ∈ Nat.toDigits 10 n, Char.ofNat ('0'.toNat + (c.toNat - '0'.toNat)) = id c :=
    fun c hc => digitChar_digit (Nat.isDigit_of_mem_toDigits (by decide) (by decide) hc)
  exact ((List.map_congr_left hsame).trans (List.map_id _)).symm

theorem digits1?_digitsText {ds : List Nat} (hne : ds ≠ []) (hds : ∀ d ∈ ds, d < 10)
    {rest : List Char} (hrest : NoDigit rest) : digits1? (digitsText ds ++ rest) = some (ds,rest) := by
  unfold digits1?
  rw [digits_digitsText hds hrest]
  cases ds with
  | nil => exact absurd rfl hne
  | cons => rfl

theorem exponentSign_digits {cs : List Char} (h : ∃ c ∈ cs.head?, c.isDigit = true) :
    exponentSign cs = (false,cs) := by
  obtain ⟨c,hc,hdigit⟩ := h
  unfold exponentSign
  split
  · cases hc
    cases hdigit
  · cases hc
    cases hdigit
  · rfl

theorem exponent?_exponentText (e : Option Int) {rest : List Char} (hrest : Ends rest) :
    exponent? (exponentText e ++ rest) = some (e,rest) := by
  cases e with
  | none =>
    cases rest with
    | nil => rfl
    | cons c rest => rcases hrest c rfl with rfl | rfl | rfl <;> rfl
  | some e =>
    have hdigits : ∀ n : Nat, digits1? (n.repr.toList ++ rest) = some (Number.digits n,rest) := by
      intro n
      rw [repr_toList]
      exact digits1?_digitsText (Number.digits_ne_nil n) (Number.lt_of_mem_digits n) hrest.noDigit
    have hhead : ∀ n : Nat, ∃ c ∈ (n.repr.toList ++ rest).head?, c.isDigit = true := by
      intro n
      rw [repr_toList]
      exact head_digitsText (Number.digits_ne_nil n) (Number.lt_of_mem_digits n) rest
    have hexponent : exponent? (exponentText (some e) ++ rest) =
        (digits1? (exponentSign (e.repr.toList ++ rest)).2).map fun r =>
          (some (if (exponentSign (e.repr.toList ++ rest)).1 then -(Number.ofDigits r.1 : Int)
            else Number.ofDigits r.1),r.2) := rfl
    rw [hexponent,Int.repr_eq_if]
    split
    · next h =>
      rw [exponentSign_digits (hhead _)]
      simp only
      rw [hdigits]
      simp only [Option.map_some,Number.ofDigits_digits]
      simp
      omega
    · next h =>
      have hsign : exponentSign (("-" ++ (-e).toNat.repr).toList ++ rest) =
        (true,(-e).toNat.repr.toList ++ rest) := by
        rw [String.toList_append]
        rfl
      rw [hsign]
      simp only
      rw [hdigits]
      simp only [Option.map_some,Number.ofDigits_digits]
      simp
      omega

theorem fraction?_fractionText {fraction : Option (List Nat)}
    (h : ∀ ds, fraction = some ds → ds ≠ [] ∧ ∀ d ∈ ds, d < 10) {rest : List Char}
    (hrest : NoDigit rest) (hpoint : rest.head? ≠ some '.') :
    fraction? (fractionText fraction ++ rest) = some (fraction,rest) := by
  cases fraction with
  | none =>
    unfold fraction? fractionText
    cases rest with
    | nil => rfl
    | cons c rest =>
      split
      · next heq =>
        cases heq
        exact absurd rfl hpoint
      · rfl
  | some ds =>
    obtain ⟨hne,hds⟩ := h ds rfl
    change (digits1? (digitsText ds ++ rest)).map _ = _
    rw [digits1?_digitsText hne hds hrest]
    rfl

theorem number?_numberText {n : Number} (h : n.WellFormed) {rest : List Char} (hrest : Ends rest) :
    number? n.negative (digitsText n.whole ++
      (fractionText n.fraction ++ (exponentText n.exponent ++ rest))) = some (number n,rest) := by
  have hexponent : NoDigit (exponentText n.exponent ++ rest) ∧
      (exponentText n.exponent ++ rest).head? ≠ some '.' := by
    cases n.exponent with
    | none =>
      refine ⟨hrest.noDigit,fun hpoint => ?_⟩
      rcases hrest '.' hpoint with h | h | h <;> cases h
    | some e => exact ⟨by rintro c ⟨⟩; rfl,by rintro ⟨⟩⟩
  have hfraction : NoDigit (fractionText n.fraction ++ (exponentText n.exponent ++ rest)) := by
    cases n.fraction with
    | none => exact hexponent.1
    | some ds => rintro c ⟨⟩; rfl
  have hwhole : whole? (digitsText n.whole ++
      (fractionText n.fraction ++ (exponentText n.exponent ++ rest))) =
        some (n.whole,fractionText n.fraction ++ (exponentText n.exponent ++ rest)) := by
    unfold whole?
    rw [digits_digitsText h.whole hfraction]
    split
    · next heq => exact absurd (congrArg Prod.fst heq) h.whole_ne_nil
    · next heq => exact absurd (congrArg Prod.fst heq) (h.leading _ _)
    · rfl
  unfold number?
  rw [hwhole]
  simp only [Option.bind_eq_bind,Option.bind_some]
  rw [fraction?_fractionText h.fraction hexponent.1 hexponent.2]
  simp only [Option.bind_some]
  rw [exponent?_exponentText _ hrest]
  rfl

end numbers

section strings

def pieceOf (c : Char) : Piece :=
  if c ≠ '"' ∧ c ≠ '\\' ∧ c.toNat < 32 then .unit c.toNat else .char c

theorem hex4?_control : ∀ n < 32, hex4? '0' '0' (hexDigit (n / 16)) (hexDigit n) = some n := by
  decide

theorem pieces?_escape (c : Char) (cs : List Char) :
    pieces? (escape c ++ cs) = (pieces? cs).map fun r => (pieceOf c :: r.1,r.2) := by
  unfold escape pieceOf
  by_cases hquote : c = '"'
  · subst hquote
    simp [pieces?,shortEscape?]
    cases pieces? cs <;> rfl
  by_cases hslash : c = '\\'
  · subst hslash
    simp [pieces?,shortEscape?]
    cases pieces? cs <;> rfl
  by_cases hcontrol : c.toNat < 32
  · simp [hquote,hslash,hcontrol,pieces?,hex4?_control _ hcontrol]
    cases pieces? cs <;> rfl
  · simp only [hquote,hslash,hcontrol,beq_iff_eq,if_false,and_false,List.cons_append,List.nil_append]
    have hplain : ¬ (decide (c.toNat < 32) || c == '\\') = true := by simp [hcontrol,hslash]
    rw [pieces?.eq_def]
    split
    · next heq => cases heq
    · next heq => exact absurd (List.cons.inj heq).1 hquote
    · next heq => exact absurd (List.cons.inj heq).1 hslash
    · next heq => exact absurd (List.cons.inj heq).1 hslash
    · next heq =>
      cases heq
      rw [if_neg hplain]

theorem decode?_pieceOf (c : Char) (ps : List Piece) :
    decode? (pieceOf c :: ps) = (decode? ps).map (c :: ·) := by
  unfold pieceOf
  split
  · next h =>
    have hhigh : isHigh c.toNat = false := by
      simp only [isHigh,Bool.and_eq_false_iff,decide_eq_false_iff_not]
      omega
    have hlow : isLow c.toNat = false := by
      simp only [isLow,Bool.and_eq_false_iff,decide_eq_false_iff_not]
      omega
    rcases ps with _ | ⟨_ | _,_⟩ <;> simp [decode?,hhigh,hlow]
  · rfl

theorem text?_token (t : Text) (rest : List Char) :
    ∃ body, token t = '"' :: body ∧ Reader.text? (body ++ rest) = some (t,rest) := by
  cases t with
  | none =>
    have hhex : hex4? 'd' '8' '0' '0' = some 0xd800 := by decide
    exact ⟨_,rfl,by simp [Reader.text?,pieces?,hhex,decode?,isHigh]⟩
  | some s =>
    have hpieces : ∀ cs : List Char, pieces? (cs.flatMap escape ++ '"' :: rest) =
        some (cs.map pieceOf,rest) := by
      intro cs
      induction cs with
      | nil => rfl
      | cons c cs ih => rw [List.flatMap_cons,List.append_assoc,pieces?_escape,ih]; rfl
    have hdecode : ∀ cs : List Char, decode? (cs.map pieceOf) = some cs := by
      intro cs
      induction cs with
      | nil => rfl
      | cons c cs ih => rw [List.map_cons,decode?_pieceOf,ih]; rfl
    refine ⟨_,rfl,?_⟩
    unfold Reader.text?
    rw [List.append_assoc,List.cons_append,List.nil_append,hpieces,Option.map_some,hdecode,
      Option.map_some,String.ofList_toList]

end strings

mutual

def WellFormed : Json → Prop
  | number n => n.WellFormed
  | array items => WellFormedItems items
  | object members => WellFormedMembers members
  | null | bool _ | string _ => True

def WellFormedItems : List Json → Prop
  | [] => True
  | item :: rest => item.WellFormed ∧ WellFormedItems rest

def WellFormedMembers : List (Text × Json) → Prop
  | [] => True
  | (_,value) :: rest => value.WellFormed ∧ WellFormedMembers rest

end

section values

theorem numberText_eq (n : Number) :
    numberText n = (if n.negative then ['-'] else []) ++
      (digitsText n.whole ++ (fractionText n.fraction ++ exponentText n.exponent)) := by
  obtain ⟨negative,whole,fraction,exponent⟩ := n
  cases fraction <;> cases exponent <;> simp [numberText,fractionText,exponentText]

theorem isBlank_digit {c : Char} (h : c.isDigit = true) : isBlank c = false ∧ c ≠ ']' := by
  constructor
  · cases hb : isBlank c with
    | false => rfl
    | true =>
      simp only [isBlank,Bool.or_eq_true,beq_iff_eq] at hb
      rcases hb with ((rfl | rfl) | rfl) | rfl <;> cases h
  · rintro rfl
    cases h

theorem chars_head {v : Json} (h : v.WellFormed) :
    ∃ c cs, chars v = c :: cs ∧ isBlank c = false ∧ c ≠ ']' := by
  cases v with
  | null => exact ⟨_,_,rfl,rfl,by decide⟩
  | bool b => cases b <;> exact ⟨_,_,rfl,rfl,by decide⟩
  | number n =>
    rw [chars,numberText_eq]
    split
    · exact ⟨_,_,rfl,rfl,by decide⟩
    · obtain ⟨c,hc,hdigit⟩ := head_digitsText h.whole_ne_nil h.whole
        (fractionText n.fraction ++ exponentText n.exponent)
      obtain ⟨cs,hcs⟩ := List.head?_eq_some_iff.mp hc
      exact ⟨c,cs,hcs,isBlank_digit hdigit⟩
  | string s =>
    obtain ⟨body,htoken,_⟩ := text?_token s []
    exact ⟨_,_,htoken,rfl,by decide⟩
  | array items => exact ⟨_,_,rfl,rfl,by decide⟩
  | object members => exact ⟨_,_,rfl,rfl,by decide⟩

theorem skipBlanks_cons {c : Char} (h : isBlank c = false) (cs : List Char) :
    skipBlanks (c :: cs) = c :: cs := by
  rw [skipBlanks,List.dropWhile_cons,h]
  rfl

theorem value?_digit {c : Char} (h : c.isDigit = true) (n : Nat) (cs : List Char) :
    value? (n + 1) (c :: cs) = number? false (c :: cs) := by
  rw [value?,skipBlanks_cons (isBlank_digit h).1]
  split <;> first | rfl | next heq => cases heq; cases h

theorem value?_number {x : Number} (h : x.WellFormed) {rest : List Char} (hrest : Ends rest) (n : Nat) :
    value? (n + 1) (numberText x ++ rest) = some (number x,rest) := by
  have hnumber := number?_numberText h hrest
  rw [numberText_eq]
  simp only [List.append_assoc]
  cases hx : x.negative with
  | true =>
    rw [hx] at hnumber
    rw [value?]
    exact hnumber
  | false =>
    rw [hx] at hnumber
    obtain ⟨c,hc,hdigit⟩ := head_digitsText h.whole_ne_nil h.whole
      (fractionText x.fraction ++ (exponentText x.exponent ++ rest))
    obtain ⟨cs,hcs⟩ := List.head?_eq_some_iff.mp hc
    rw [hcs] at hnumber
    rw [if_neg Bool.false_ne_true,List.nil_append,hcs,value?_digit hdigit]
    exact hnumber

theorem member?_token (key : Text) {value : Json} {n : Nat} {cs rest : List Char}
    (h : value? n cs = some (value,rest)) :
    member? (n + 1) (token key ++ ':' :: cs) = some ((key,value),rest) := by
  obtain ⟨body,htoken,htext⟩ := text?_token key (':' :: cs)
  have hskip : skipBlanks ('"' :: (body ++ ':' :: cs)) = '"' :: (body ++ ':' :: cs) := rfl
  rw [htoken,List.cons_append,member?,hskip]
  simp only [htext]
  change (value? n cs).map _ = _
  rw [h]
  rfl

theorem value?_array {v : Json} (h : v.WellFormed) (n : Nat) (cs : List Char) :
    value? (n + 1) ('[' :: (chars v ++ cs)) = (items? n (chars v ++ cs)).map fun r => (array r.1,r.2) := by
  obtain ⟨c,more,hchars,hblank,hne⟩ := chars_head h
  have hskip : skipBlanks ('[' :: (chars v ++ cs)) = '[' :: (chars v ++ cs) := rfl
  rw [value?,hskip]
  simp only
  rw [hchars,List.cons_append,skipBlanks_cons hblank]
  split
  · next heq =>
    cases heq
    exact absurd rfl hne
  · rfl

theorem value?_object (key : Text) (n : Nat) (cs : List Char) :
    value? (n + 1) ('\x7b' :: (token key ++ cs)) =
      (members? n (token key ++ cs)).map fun r => (object r.1,r.2) := by
  obtain ⟨body,htoken,_⟩ := text?_token key []
  rw [htoken,value?]
  rfl

theorem ends_cons {c : Char} (h : c = ',' ∨ c = ']' ∨ c = '\x7d') (cs : List Char) : Ends (c :: cs) := by
  rintro _ ⟨⟩
  exact h

mutual

theorem value?_chars : ∀ (v : Json) {n : Nat} {rest : List Char}, v.WellFormed → Ends rest →
    3 * (chars v).length ≤ n → value? (n + 1) (chars v ++ rest) = some (v,rest)
  | null, n, rest, _, _, _ => by rw [value?]; rfl
  | bool true, n, rest, _, _, _ => by rw [value?]; rfl
  | bool false, n, rest, _, _, _ => by rw [value?]; rfl
  | number x, n, rest, h, hrest, _ => value?_number h hrest n
  | string s, n, rest, _, _, _ => by
    obtain ⟨body,htoken,htext⟩ := text?_token s rest
    rw [chars,htoken,value?]
    change (Reader.text? (body ++ rest)).map _ = _
    rw [htext]
    rfl
  | array [], n, rest, _, _, _ => by rw [value?]; rfl
  | array (item :: items), n, rest, h, _, hn => by
    rw [chars] at hn
    simp only [List.length_append,List.length_cons,List.length_nil] at hn
    obtain ⟨k,rfl⟩ := Nat.exists_eq_add_one_of_ne_zero (n := n) (by omega)
    have hitems : items? (k + 1) (itemChars (item :: items) ++ ']' :: rest) =
      some (item :: items,rest) := items?_itemChars (item :: items) (List.cons_ne_nil _ _) h (by omega)
    have hchars : ∃ more, itemChars (item :: items) = chars item ++ more := by
      cases items with
      | nil => exact ⟨[],by rw [itemChars,List.append_nil]⟩
      | cons => exact ⟨_,rfl⟩
    obtain ⟨more,hmore⟩ := hchars
    rw [hmore,List.append_assoc] at hitems
    rw [chars,hmore,List.cons_append,List.append_assoc,List.append_assoc,List.singleton_append,
      value?_array h.1,hitems]
    rfl
  | object [], n, rest, _, _, _ => by rw [value?]; rfl
  | object ((key,value) :: members), n, rest, h, _, hn => by
    rw [chars] at hn
    simp only [List.length_append,List.length_cons,List.length_nil] at hn
    obtain ⟨k,rfl⟩ := Nat.exists_eq_add_one_of_ne_zero (n := n) (by omega)
    have hmembers : members? (k + 1) (memberChars ((key,value) :: members) ++ '\x7d' :: rest) =
        some ((key,value) :: members,rest) :=
      members?_memberChars ((key,value) :: members) (List.cons_ne_nil _ _) h (by omega)
    have hchars : ∃ more, memberChars ((key,value) :: members) = token key ++ more := by
      cases members with
      | nil => exact ⟨_,rfl⟩
      | cons => exact ⟨_,rfl⟩
    obtain ⟨more,hmore⟩ := hchars
    rw [hmore,List.append_assoc] at hmembers
    rw [chars,hmore,List.cons_append,List.append_assoc,List.append_assoc,List.singleton_append,
      value?_object,hmembers]
    rfl

theorem items?_itemChars : ∀ (items : List Json) {n : Nat} {rest : List Char}, items ≠ [] →
    WellFormedItems items → 3 * (itemChars items).length < n →
    items? (n + 1) (itemChars items ++ ']' :: rest) = some (items,rest)
  | [], _, _, hne, _, _ => absurd rfl hne
  | [item], n, rest, _, h, hn => by
    obtain ⟨k,rfl⟩ := Nat.exists_eq_add_one_of_ne_zero (Nat.ne_zero_of_lt hn)
    rw [itemChars] at hn ⊢
    rw [items?,value?_chars item h.1 (ends_cons (by decide) _) (Nat.le_of_lt_succ hn)]
    rfl
  | item :: next :: more, n, rest, _, h, hn => by
    obtain ⟨k,rfl⟩ := Nat.exists_eq_add_one_of_ne_zero (Nat.ne_zero_of_lt hn)
    have hchars : itemChars (item :: next :: more) = chars item ++ ',' :: itemChars (next :: more) := by
      rw [itemChars]
      simp
    rw [hchars] at hn ⊢
    simp only [List.length_append,List.length_cons] at hn
    rw [List.append_assoc,List.cons_append,items?,
      value?_chars item h.1 (ends_cons (by decide) _) (by omega)]
    change (items? (k + 1) (itemChars (next :: more) ++ ']' :: rest)).map _ = _
    rw [items?_itemChars (next :: more) (List.cons_ne_nil _ _) h.2 (by omega)]
    rfl

theorem members?_memberChars : ∀ (members : List (Text × Json)) {n : Nat} {rest : List Char},
    members ≠ [] → WellFormedMembers members → 3 * (memberChars members).length ≤ n →
    members? (n + 1) (memberChars members ++ '\x7d' :: rest) = some (members,rest)
  | [], _, _, hne, _, _ => absurd rfl hne
  | [(key,value)], n, rest, _, h, hn => by
    rw [memberChars,List.length_append,List.length_cons] at hn
    obtain ⟨k,rfl⟩ := Nat.exists_eq_add_of_le' (show 2 ≤ n by omega)
    have hvalue : value? (k + 1) (chars value ++ '\x7d' :: rest) = some (value,'\x7d' :: rest) :=
      value?_chars value h.1 (ends_cons (by decide) _) (by omega)
    rw [memberChars,List.append_assoc,List.cons_append,members?,member?_token key hvalue]
    rfl
  | (key,value) :: (key',value') :: more, n, rest, _, h, hn => by
    have hchars : memberChars ((key,value) :: (key',value') :: more) =
        token key ++ ':' :: (chars value ++ ',' :: memberChars ((key',value') :: more)) := by
      rw [memberChars]
      simp
    rw [hchars] at hn ⊢
    simp only [List.length_append,List.length_cons] at hn
    obtain ⟨k,rfl⟩ := Nat.exists_eq_add_of_le' (show 2 ≤ n by omega)
    have hvalue : ∀ cs, value? (k + 1) (chars value ++ ',' :: cs) = some (value,',' :: cs) :=
      fun cs => value?_chars value h.1 (ends_cons (by decide) _) (by omega)
    rw [List.append_assoc,List.cons_append,List.append_assoc,List.cons_append,members?,
      member?_token key (hvalue _)]
    change (members? (k + 2) (memberChars ((key',value') :: more) ++ '\x7d' :: rest)).map _ = _
    rw [members?_memberChars ((key',value') :: more) (List.cons_ne_nil _ _) h.2 (by omega)]
    rfl

end

end values

theorem parse?_render {v : Json} (h : v.WellFormed) : parse? v.render = some v := by
  have hvalue : value? (3 * (chars v).length + 3) (chars v ++ []) = some (v,[]) :=
    value?_chars v h (by rintro _ ⟨⟩) (by omega)
  rw [List.append_nil] at hvalue
  unfold parse? render
  simp only [String.toList_ofList]
  rw [hvalue]
  rfl

end StackCompiler.Json
