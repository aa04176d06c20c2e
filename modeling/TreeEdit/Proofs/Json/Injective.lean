import Mathlib.Logic.Function.Basic
import TreeEdit.Proofs.Json.RoundTrip

/-!
# Different values have different texts

The first character of a text tells what kind of value it is (`announces_head`), and the text itself tells where the value
ends. So when two texts are equal, each of a value with something behind it, the values are equal, and what is behind them is
equal too (`separates`). The proof goes through lists and objects item by item. Numbers may have any size, other than for the
reader.
-/

namespace TreeEdit.Json

/-- The kinds of values that a first character keeps apart. -/
inductive Kind where
  | null
  | bool (b : Bool)
  | num
  | str
  | arr
  | obj

def kind : Json → Kind
  | .null => .null
  | .bool b => .bool b
  | .num _ => .num
  | .str _ => .str
  | .arr _ => .arr
  | .obj _ => .obj

/-- The kind of the values that begin with a character. -/
def announces (c : Char) : Option Kind :=
  match c with
  | 'n' => some .null
  | 't' => some (.bool true)
  | 'f' => some (.bool false)
  | '-' => some .num
  | '\x22' => some .str
  | '[' => some .arr
  | '\x7b' => some .obj
  | c => if c.isDigit then some .num else none

theorem announces_of_isDigit {c : Char} (h : c.isDigit = true) : announces c = some .num := by
  unfold announces
  split
  case h_8 => rw [if_pos h]
  all_goals exact absurd h (by decide)

theorem announces_head (j : Json) (rest : List Char) : (j.writeThen rest).head?.bind announces = some j.kind := by
  cases j with
  | null | str s => rfl
  | bool b => cases b <;> rfl
  | arr js => cases js <;> rfl
  | obj fs => cases fs <;> rfl
  | num n =>
    cases n with
    | negSucc n => rfl
    | ofNat n =>
      cases hc : Nat.toDigits 10 n ++ rest with
      | nil => exact absurd (List.append_eq_nil_iff.mp hc).1 Nat.toDigits_ne_nil
      | cons c cs =>
        rw [writeThen, digits, hc]
        exact announces_of_isDigit (isDigit_of_toDigits_eq hc)

theorem kind_eq_of_writeThen_eq {j k : Json} {rest rest' : List Char} (h : j.writeThen rest = k.writeThen rest') :
    j.kind = k.kind := by
  have hhead := congrArg (fun cs => cs.head?.bind announces) h
  simp only [announces_head, Option.some.injEq] at hhead
  exact hhead

theorem writeThen_ne_close (j : Json) (rest rest' : List Char) : j.writeThen rest ≠ ']' :: rest' := by
  intro h
  have hhead := announces_head j rest
  rw [h] at hhead
  cases hhead

/-! ## What a text separates -/

/-- The text of the value is no text of another one, whatever comes behind. -/
def Separates (j : Json) : Prop :=
  ∀ (k : Json) (rest rest' : List Char), Ends rest → Ends rest' → j.writeThen rest = k.writeThen rest' →
    j = k ∧ rest = rest'

/-- The text of further items, up to the end of their list, is no text of others. -/
def ItemsSeparate (js : List Json) : Prop :=
  ∀ (ks : List Json) (rest rest' : List Char), itemsThen js (']' :: rest) = itemsThen ks (']' :: rest') →
    js = ks ∧ rest = rest'

/-- The text of further fields, up to the end of their object, is no text of others. -/
def FieldsSeparate (fs : List (String × Json)) : Prop :=
  ∀ (gs : List (String × Json)) (rest rest' : List Char), fieldsThen fs ('\x7d' :: rest) = fieldsThen gs ('\x7d' :: rest') →
    fs = gs ∧ rest = rest'

theorem quoteThen_inj {s s' : String} {rest rest' : List Char} (h : quoteThen s rest = quoteThen s' rest') :
    s = s' ∧ rest = rest' := by
  have hcut := congrArg cutString (List.cons.inj h).2
  rw [cutString_quoted, cutString_quoted] at hcut
  simpa using hcut

theorem toDigits_append_inj {n m : Nat} {rest rest' : List Char} (hrest : Ends rest) (hrest' : Ends rest')
    (h : Nat.toDigits 10 n ++ rest = Nat.toDigits 10 m ++ rest') : n = m ∧ rest = rest' := by
  have hcut := congrArg Number.digits h
  rw [digits_toDigits n hrest, digits_toDigits m hrest', Prod.mk.injEq] at hcut
  have hvalue := congrArg Number.natOf hcut.1
  rw [natOf_toDigits, natOf_toDigits] at hvalue
  exact ⟨hvalue, hcut.2⟩

theorem separates_null : Separates .null := by
  intro k rest rest' _ _ h
  have hkind := kind_eq_of_writeThen_eq h
  cases k with
  | null => exact ⟨rfl, List.append_cancel_left h⟩
  | _ => cases hkind

theorem separates_bool (b : Bool) : Separates (.bool b) := by
  intro k rest rest' _ _ h
  have hkind := kind_eq_of_writeThen_eq h
  cases k with
  | bool b' =>
    cases hkind
    refine ⟨rfl, ?_⟩
    cases b <;> exact List.append_cancel_left h
  | _ => cases hkind

theorem digits_append_inj {n m : Int} {rest rest' : List Char} (hrest : Ends rest) (hrest' : Ends rest')
    (h : digits n ++ rest = digits m ++ rest') : n = m ∧ rest = rest' := by
  cases n with
  | ofNat n =>
    cases m with
    | ofNat m =>
      obtain ⟨rfl, hrests⟩ := toDigits_append_inj hrest hrest' h
      exact ⟨rfl, hrests⟩
    | negSucc m => exact absurd (isDigit_of_toDigits_eq h) (by decide)
  | negSucc n =>
    cases m with
    | ofNat m => exact absurd (isDigit_of_toDigits_eq h.symm) (by decide)
    | negSucc m =>
      obtain ⟨hsucc, hrests⟩ := toDigits_append_inj hrest hrest' (List.cons.inj h).2
      cases hsucc
      exact ⟨rfl, hrests⟩

theorem separates_num (n : Int) : Separates (.num n) := by
  intro k rest rest' hrest hrest' h
  have hkind := kind_eq_of_writeThen_eq h
  cases k with
  | num m =>
    obtain ⟨rfl, hrests⟩ := digits_append_inj hrest hrest' h
    exact ⟨rfl, hrests⟩
  | _ => cases hkind

theorem separates_str (s : String) : Separates (.str s) := by
  intro k rest rest' _ _ h
  have hkind := kind_eq_of_writeThen_eq h
  cases k with
  | str s' =>
    obtain ⟨rfl, hrests⟩ := quoteThen_inj h
    exact ⟨rfl, hrests⟩
  | _ => cases hkind

/-! ## Lists and objects -/

theorem itemsSeparate_nil : ItemsSeparate [] := by
  intro ks rest rest' h
  cases ks with
  | nil => exact ⟨rfl, (List.cons.inj h).2⟩
  | cons k ks => exact absurd (List.cons.inj h).1 (by decide)

theorem itemsSeparate_cons {j : Json} {js : List Json} (hj : Separates j) (hjs : ItemsSeparate js) :
    ItemsSeparate (j :: js) := by
  intro ks rest rest' h
  cases ks with
  | nil => exact absurd (List.cons.inj h).1 (by decide)
  | cons k ks =>
    obtain ⟨rfl, hitems⟩ := hj k _ _ (ends_itemsThen js rest) (ends_itemsThen ks rest') (List.cons.inj h).2
    obtain ⟨rfl, hrests⟩ := hjs ks rest rest' hitems
    exact ⟨rfl, hrests⟩

theorem separates_arr {js : List Json} (hjs : ItemsSeparate js) : Separates (.arr js) := by
  intro k rest rest' _ _ h
  have hkind := kind_eq_of_writeThen_eq h
  cases k with
  | arr ks =>
    -- But for its bracket, the text of a list is that of further items without the first comma.
    have hitems : itemsThen js (']' :: rest) = itemsThen ks (']' :: rest') := by
      cases js with
      | nil =>
        cases ks with
        | nil => exact (List.cons.inj h).2
        | cons k ks => exact absurd (List.cons.inj h).2.symm (writeThen_ne_close k _ rest)
      | cons j js =>
        cases ks with
        | nil => exact absurd (List.cons.inj h).2 (writeThen_ne_close j _ rest')
        | cons k ks => exact congrArg (',' :: ·) (List.cons.inj h).2
    obtain ⟨rfl, hrests⟩ := hjs ks rest rest' hitems
    exact ⟨rfl, hrests⟩
  | _ => cases hkind

theorem fieldsSeparate_nil : FieldsSeparate [] := by
  intro gs rest rest' h
  cases gs with
  | nil => exact ⟨rfl, (List.cons.inj h).2⟩
  | cons g gs => exact absurd (List.cons.inj h).1 (by decide)

theorem fieldsSeparate_cons (k : String) {j : Json} {fs : List (String × Json)} (hj : Separates j)
    (hfs : FieldsSeparate fs) : FieldsSeparate ((k, j) :: fs) := by
  intro gs rest rest' h
  cases gs with
  | nil => exact absurd (List.cons.inj h).1 (by decide)
  | cons g gs =>
    obtain ⟨k', j'⟩ := g
    obtain ⟨rfl, hvalue⟩ := quoteThen_inj (List.cons.inj h).2
    obtain ⟨rfl, hfields⟩ :=
      hj j' _ _ (ends_fieldsThen fs rest) (ends_fieldsThen gs rest') (List.cons.inj hvalue).2
    obtain ⟨rfl, hrests⟩ := hfs gs rest rest' hfields
    exact ⟨rfl, hrests⟩

theorem separates_obj {fs : List (String × Json)} (hfs : FieldsSeparate fs) : Separates (.obj fs) := by
  intro k rest rest' _ _ h
  have hkind := kind_eq_of_writeThen_eq h
  cases k with
  | obj gs =>
    have hfields : fieldsThen fs ('\x7d' :: rest) = fieldsThen gs ('\x7d' :: rest') := by
      cases fs with
      | nil =>
        cases gs with
        | nil => exact (List.cons.inj h).2
        | cons g gs => exact absurd (List.cons.inj (List.cons.inj h).2).1 (by decide)
      | cons f fs =>
        cases gs with
        | nil => exact absurd (List.cons.inj (List.cons.inj h).2).1 (by decide)
        | cons g gs => exact congrArg (',' :: ·) (List.cons.inj h).2
    obtain ⟨rfl, hrests⟩ := hfs gs rest rest' hfields
    exact ⟨rfl, hrests⟩
  | _ => cases hkind

/-! ## Whole texts -/

/-- **Every text separates its value from what is behind it.** -/
theorem separates : ∀ j : Json, Separates j := by
  refine @Json.rec Separates ItemsSeparate FieldsSeparate (fun f => Separates f.2)
    ?null ?bool ?num ?str ?arr ?obj ?noItem ?item ?noField ?field ?pair
  case null => exact separates_null
  case bool => exact separates_bool
  case num => exact separates_num
  case str => exact separates_str
  case arr => exact fun _ => separates_arr
  case obj => exact fun _ => separates_obj
  case noItem => exact itemsSeparate_nil
  case item => exact fun _ _ => itemsSeparate_cons
  case noField => exact fieldsSeparate_nil
  case field => exact fun f _ => fieldsSeparate_cons f.1
  case pair => exact fun _ _ ih => ih

theorem render_injective : Function.Injective render := by
  intro j k h
  exact (separates j k [] [] (by simp [Ends]) (by simp [Ends]) (String.ofList_injective h)).1

end TreeEdit.Json
