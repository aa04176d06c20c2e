import TreeEdit.Json.Basic
import TreeEdit.Json.Reader

/-!
# Reading what was written

The writer of JSON texts works on values, the reader on characters, tokens and a stack of open lists and objects. They
meet in `Json.document`, what a value looks like to a reader: the text of a value, up to what follows it, takes the
reader from where a value is expected to where one is complete (`reads_writeThen`). So a text that was written is the
document of its value, and nothing follows it (`ofText_render`).

Numbers have to fit into 64 bits (`Json.Fits`), since others are read as floating point.
-/

namespace TreeEdit.Json

/-! ## Strings -/

theorem hex4?_control : ∀ n < 32, hex4? '0' '0' (Nat.digitChar (n / 16)) (Nat.digitChar (n % 16)) = some n := by
  decide

theorem units_control {n : Nat} (h : n < 0x20) (cs : List Char) :
    units (controlEscape n ++ cs) = (.unit n :: (units cs).1, (units cs).2) := by
  simp only [controlEscape, List.cons_append, List.nil_append, units, hex4?_control n h]

theorem units_cons {c : Char} (hquote : c ≠ '\x22') (hslash : c ≠ '\\') (hcontrol : ¬ c.toNat < 0x20) (cs : List Char) :
    units (c :: cs) = (.char c :: (units cs).1, (units cs).2) := by
  rw [units]
  · simp [hquote, hcontrol]
  all_goals simp [hslash]

theorem join_control {n : Nat} (h : n < 0x20) (fault : Option Fault) (us : List CodeUnit) :
    join fault (.unit n :: us) = (join fault us).map (Char.ofNat n :: ·) := by
  have htrailing : isTrailing n = false := by
    rw [isTrailing, decide_eq_false (by omega), Bool.false_and]
  have hleading : isLeading n = false := by
    rw [isLeading, decide_eq_false (by omega), Bool.false_and]
  rw [join.eq_def]
  simp [htrailing, hleading]

theorem exists_units_escape (c : Char) (cs : List Char) :
    ∃ u, units (escape c ++ cs) = (u :: (units cs).1, (units cs).2) ∧
      ∀ fault us, join fault (u :: us) = (join fault us).map (c :: ·) := by
  unfold escape
  split
  case h_8 hquote hslash _ _ _ _ _ =>
    split
    · rename_i hcontrol
      refine ⟨_, units_control hcontrol cs, fun fault us => ?_⟩
      rw [join_control hcontrol, Char.ofNat_toNat]
    · rename_i hcontrol
      exact ⟨_, units_cons hquote hslash hcontrol cs, fun _ _ => rfl⟩
  all_goals exact ⟨_, rfl, fun _ _ => rfl⟩

theorem units_flatMap_escape (s rest : List Char) :
    (units (s.flatMap escape ++ '\x22' :: rest)).2 = (none, rest) ∧
      join none (units (s.flatMap escape ++ '\x22' :: rest)).1 = .ok s := by
  induction s with
  | nil => exact ⟨rfl, rfl⟩
  | cons c s ih =>
    obtain ⟨u, hunits, hjoin⟩ := exists_units_escape c (s.flatMap escape ++ '\x22' :: rest)
    rw [List.flatMap_cons, List.append_assoc, hunits, hjoin, ih.2]
    exact ⟨ih.1, rfl⟩

theorem cutString_quoted (s : String) (rest : List Char) :
    cutString (s.toList.flatMap escape ++ '\x22' :: rest) = (.string (.ok s), rest) := by
  obtain ⟨hend, hjoin⟩ := units_flatMap_escape s.toList rest
  rw [Prod.ext_iff] at hend
  simp only [cutString, hend.1, hend.2, hjoin, Except.map, String.ofList_toList]

/-! ## Numbers -/

/-- What can come after a value: nothing, a comma or a closing bracket. -/
def Ends (rest : List Char) : Prop :=
  ∀ c ∈ rest.head?, c = ',' ∨ c = ']' ∨ c = '\x7d'

theorem Ends.head_cases {rest : List Char} (h : Ends rest) :
    rest = [] ∨ ∃ c cs, rest = c :: cs ∧ (c = ',' ∨ c = ']' ∨ c = '\x7d') := by
  cases rest with
  | nil => exact .inl rfl
  | cons c cs => exact .inr ⟨c, cs, rfl, h c rfl⟩

theorem head_toDigits {n : Nat} (h : n ≠ 0) : (Nat.toDigits 10 n).head? ≠ some '0' := by
  induction n using Nat.strongRecOn with
  | ind n ih =>
    by_cases hlt : n < 10
    · rw [Nat.toDigits_of_lt_base hlt]
      have hdigit : ∀ d < 10, d ≠ 0 → Nat.digitChar d ≠ '0' := by decide
      simpa using hdigit n hlt h
    · have hrest := ih (n / 10) (by omega) (by omega)
      rw [Nat.toDigits_of_base_le (by omega) (by omega), List.head?_append]
      cases hhead : (Nat.toDigits 10 (n / 10)).head? with
      | none => exact absurd (List.head?_eq_none_iff.mp hhead) Nat.toDigits_ne_nil
      | some c =>
        rw [hhead] at hrest
        exact hrest

theorem digits_append {ds rest : List Char} (hds : ∀ c ∈ ds, c.isDigit = true)
    (hrest : ∀ c ∈ rest.head?, c.isDigit = false) : Number.digits (ds ++ rest) = (ds, rest) := by
  have hstop : rest.takeWhile Char.isDigit = [] ∧ rest.dropWhile Char.isDigit = rest := by
    cases rest with
    | nil => exact ⟨rfl, rfl⟩
    | cons c cs => simp [hrest c rfl]
  rw [Number.digits, List.takeWhile_append_of_pos hds, List.dropWhile_append_of_pos hds, hstop.1, hstop.2, List.append_nil]

theorem digits_toDigits (n : Nat) {rest : List Char} (h : Ends rest) :
    Number.digits (Nat.toDigits 10 n ++ rest) = (Nat.toDigits 10 n, rest) := by
  refine digits_append (fun c hc => Nat.isDigit_of_mem_toDigits (by decide) (by decide) hc) fun c hc => ?_
  rcases h c hc with rfl | rfl | rfl <;> rfl

theorem cut_toDigits (negative : Bool) (n : Nat) {rest : List Char} (h : Ends rest) :
    Number.cut negative (Nat.toDigits 10 n ++ rest) =
      ⟨Number.ofWhole negative (Nat.toDigits 10 n), .ok (), rest⟩ := by
  have htail : Number.cutTail negative (Nat.toDigits 10 n) rest =
      ⟨Number.ofWhole negative (Nat.toDigits 10 n), .ok (), rest⟩ := by
    rcases h.head_cases with rfl | ⟨c, cs, rfl, rfl | rfl | rfl⟩ <;> rfl
  rw [Number.cut, digits_toDigits n h]
  split
  · rename_i hnil
    simp only [Prod.mk.injEq] at hnil
    exact absurd hnil.1 Nat.toDigits_ne_nil
  · rename_i c cs rest' hzero
    simp only [Prod.mk.injEq] at hzero
    by_cases hn : n = 0
    · subst hn
      cases hzero.1
    · exact absurd (by rw [hzero.1]; rfl) (head_toDigits hn)
  · rename_i whole rest' _ _ heq
    simp only [Prod.mk.injEq] at heq
    rw [← heq.1, ← heq.2, htail]

theorem natOf_toDigits (n : Nat) : Number.natOf (Nat.toDigits 10 n) = n :=
  Nat.ofDigitChars_toDigits (by decide) (by decide)

theorem isDigit_of_toDigits_eq {n : Nat} {rest cs : List Char} {c : Char} (h : Nat.toDigits 10 n ++ rest = c :: cs) :
    c.isDigit = true := by
  cases hds : Nat.toDigits 10 n with
  | nil => exact absurd hds Nat.toDigits_ne_nil
  | cons d ds =>
    rw [hds, List.cons_append] at h
    cases h
    have hmem : c ∈ Nat.toDigits 10 n := by rw [hds]; exact List.mem_cons_self
    exact Nat.isDigit_of_mem_toDigits (by decide) (by decide) hmem

theorem isSpace_of_isDigit {c : Char} (h : c.isDigit = true) : isSpace c = false := by
  have hne : ∀ d : Char, d.isDigit = false → c ≠ d := by
    rintro d hd rfl
    rw [h] at hd
    cases hd
  simp [isSpace, hne ' ' rfl, hne '\n' rfl, hne '\t' rfl, hne '\r' rfl]

theorem cutToken_digit {c : Char} (h : c.isDigit = true) (cs : List Char) :
    cutToken c cs = numberToken (Number.cut false (c :: cs)) := by
  unfold cutToken
  split
  case h_12 => rw [if_pos h]
  all_goals exact absurd h (by decide)

theorem cutToken_nat {n : Nat} (hn : n ≤ Number.maxWord) {rest : List Char} (h : Ends rest) {c : Char} {cs : List Char}
    (hc : Nat.toDigits 10 n ++ rest = c :: cs) : cutToken c cs = (.number (.ok (.int n)), rest) := by
  rw [cutToken_digit (isDigit_of_toDigits_eq hc), ← hc, cut_toDigits false n h, Number.ofWhole, natOf_toDigits]
  simp [numberToken, hn]

theorem cutToken_neg {n : Nat} (hn : n < Nat.pow 2 63) {rest : List Char} (h : Ends rest) :
    cutToken '-' (Nat.toDigits 10 (n + 1) ++ rest) = (.number (.ok (.int (.negSucc n))), rest) := by
  show numberToken (Number.cut true _) = _
  have hpos : (decide (0 < n + 1) && decide (n + 1 ≤ Nat.pow 2 63)) = true := by
    rw [decide_eq_true (Nat.succ_pos n), decide_eq_true (Nat.succ_le_of_lt hn), Bool.and_self]
  rw [cut_toDigits true (n + 1) h, Number.ofWhole, natOf_toDigits]
  simp only [hpos, if_true, numberToken]
  rfl

/-- The number fits into 64 bits, signed or not. -/
def WordInt : Int → Prop
  | .ofNat n => n ≤ Number.maxWord
  | .negSucc n => n < Nat.pow 2 63

mutual

/-- All numbers in the value fit into 64 bits. -/
def Fits : Json → Prop
  | .num n => WordInt n
  | .arr items => FitsAll items
  | .obj fields => FitsFields fields
  | .null | .bool _ | .str _ => True

def FitsAll : List Json → Prop
  | [] => True
  | j :: js => j.Fits ∧ FitsAll js

def FitsFields : List (String × Json) → Prop
  | [] => True
  | (_, j) :: fs => j.Fits ∧ FitsFields fs

end

mutual

/-- What a value looks like to a reader of its text. -/
def document : Json → Document
  | .null => .null
  | .bool b => .bool b
  | .num n => .number (.ok (.int n))
  | .str s => .string (.ok s)
  | .arr items => .list (documents items) .closed
  | .obj fields => .object (members fields) .closed

def documents : List Json → List Document
  | [] => []
  | j :: js => j.document :: documents js

def members : List (String × Json) → List Member
  | [] => []
  | (k, j) :: fs => .mk (.ok k) j.document :: members fs

end

/-! ## From text to document -/

/-- Where the reader is after a text. -/
def reads (p : Pending) (cs : List Char) : Pending :=
  (lex cs).foldl Pending.step p

theorem reads_nil (p : Pending) : reads p [] = p := by
  rw [reads, lex]
  rfl

theorem reads_cons (p : Pending) {c : Char} {cs rest : List Char} {t : Token} (hspace : isSpace c = false)
    (hcut : cutToken c cs = (t, rest)) : reads p (c :: cs) = reads (p.step t) rest := by
  rw [reads, lex, if_neg (by simp [hspace]), hcut]
  rfl

theorem reads_quoteThen (p : Pending) (s : String) (rest : List Char) :
    reads p (quoteThen s rest) = reads (p.step (.string (.ok s))) rest :=
  reads_cons p rfl (cutString_quoted s rest)

theorem reads_digits (p : Pending) {n : Int} (hn : WordInt n) {rest : List Char} (h : Ends rest) :
    reads p (digits n ++ rest) = reads (p.step (.number (.ok (.int n)))) rest := by
  cases n with
  | negSucc n => exact reads_cons p rfl (cutToken_neg hn h)
  | ofNat n =>
    cases hc : Nat.toDigits 10 n ++ rest with
    | nil => exact absurd (List.append_eq_nil_iff.mp hc).1 Nat.toDigits_ne_nil
    | cons c cs =>
      rw [digits, hc]
      exact reads_cons p (isSpace_of_isDigit (isDigit_of_toDigits_eq hc)) (cutToken_nat hn h hc)

/-! ## Values, wherever one may come -/

namespace Pending

/-- The reader is where a value may come, which then belongs on top of the stack. -/
def Takes (p : Pending) (stack : List Frame) : Prop :=
  ∀ t, t ≠ .closeList → p.step t = onValue stack t

theorem takes_value (stack : List Frame) : Takes ⟨stack, .value⟩ stack :=
  fun _ _ => rfl

theorem takes_firstItem (stack : List Frame) : Takes ⟨stack, .firstItem⟩ (.item [] :: stack) := by
  intro t ht
  cases t with
  | closeList => exact absurd rfl ht
  | _ => rfl

theorem takes_nextItem (stack : List Frame) (before : List Document) :
    Takes ⟨stack, .nextItem before⟩ (.item before :: stack) := by
  intro t ht
  cases t with
  | closeList => exact absurd rfl ht
  | _ => rfl

end Pending

/-- The text of the value, up to what follows it, is read as the value. -/
def ReadBack (j : Json) : Prop :=
  ∀ (p : Pending) (stack : List Frame) (rest : List Char), p.Takes stack → Ends rest →
    reads p (j.writeThen rest) = reads (.complete stack j.document) rest

def ItemsReadBack (js : List Json) : Prop :=
  ∀ (stack : List Frame) (before : List Document) (rest : List Char),
    reads ⟨stack, .afterItem before⟩ (itemsThen js (']' :: rest)) =
      reads (.complete stack (.list (before.reverse ++ documents js) .closed)) rest

def FieldsReadBack (fs : List (String × Json)) : Prop :=
  ∀ (stack : List Frame) (before : List Member) (rest : List Char),
    reads ⟨stack, .afterMember before⟩ (fieldsThen fs ('\x7d' :: rest)) =
      reads (.complete stack (.object (before.reverse ++ members fs) .closed)) rest

theorem reads_value {p : Pending} {stack : List Frame} (hp : p.Takes stack) {c : Char} {cs rest : List Char} {t : Token}
    (hspace : isSpace c = false) (hcut : cutToken c cs = (t, rest)) (ht : t ≠ .closeList) :
    reads p (c :: cs) = reads (.onValue stack t) rest := by
  rw [reads_cons p hspace hcut, hp t ht]

theorem reads_openList {p : Pending} {stack : List Frame} (hp : p.Takes stack) (cs : List Char) :
    reads p ('[' :: cs) = reads ⟨stack, .firstItem⟩ cs := by
  have hcut : cutToken '[' cs = (.openList, cs) := rfl
  exact reads_value hp rfl hcut (by simp)

theorem reads_openObject {p : Pending} {stack : List Frame} (hp : p.Takes stack) (cs : List Char) :
    reads p ('\x7b' :: cs) = reads ⟨stack, .firstKey⟩ cs := by
  have hcut : cutToken '\x7b' cs = (.openObject, cs) := rfl
  exact reads_value hp rfl hcut (by simp)

theorem reads_null {p : Pending} {stack : List Frame} (hp : p.Takes stack) (rest : List Char) :
    reads p ("null".toList ++ rest) = reads (.complete stack .null) rest := by
  have hcut : cutToken 'n' ("ull".toList ++ rest) = (.null, rest) := rfl
  exact reads_value hp rfl hcut (by simp)

theorem reads_true {p : Pending} {stack : List Frame} (hp : p.Takes stack) (rest : List Char) :
    reads p ("true".toList ++ rest) = reads (.complete stack (.bool true)) rest := by
  have hcut : cutToken 't' ("rue".toList ++ rest) = (.bool true, rest) := rfl
  exact reads_value hp rfl hcut (by simp)

theorem reads_false {p : Pending} {stack : List Frame} (hp : p.Takes stack) (rest : List Char) :
    reads p ("false".toList ++ rest) = reads (.complete stack (.bool false)) rest := by
  have hcut : cutToken 'f' ("alse".toList ++ rest) = (.bool false, rest) := rfl
  exact reads_value hp rfl hcut (by simp)

theorem readBack_null : ReadBack .null :=
  fun _ _ rest hp _ => reads_null hp rest

theorem readBack_bool (b : Bool) : ReadBack (.bool b) := by
  intro p stack rest hp _
  cases b with
  | true => exact reads_true hp rest
  | false => exact reads_false hp rest

theorem readBack_num {n : Int} (hn : WordInt n) : ReadBack (.num n) := by
  intro p stack rest hp hrest
  rw [writeThen, reads_digits p hn hrest, hp _ (by simp)]
  rfl

theorem readBack_str (s : String) : ReadBack (.str s) := by
  intro p stack rest hp _
  rw [writeThen, reads_quoteThen, hp _ (by simp)]
  rfl

/-! ## Lists and objects -/

theorem ends_cons {c : Char} (h : c = ',' ∨ c = ']' ∨ c = '\x7d') (rest : List Char) : Ends (c :: rest) := by
  intro d hd
  cases hd
  exact h

theorem ends_itemsThen (js : List Json) (rest : List Char) : Ends (itemsThen js (']' :: rest)) := by
  cases js with
  | nil => exact ends_cons (.inr (.inl rfl)) rest
  | cons j js => exact ends_cons (.inl rfl) _

theorem ends_fieldsThen (fs : List (String × Json)) (rest : List Char) : Ends (fieldsThen fs ('\x7d' :: rest)) := by
  cases fs with
  | nil => exact ends_cons (.inr (.inr rfl)) rest
  | cons f fs => exact ends_cons (.inl rfl) _

theorem itemsReadBack_nil : ItemsReadBack [] := by
  intro stack before rest
  rw [itemsThen, documents, List.append_nil]
  exact reads_cons _ rfl rfl

theorem itemsReadBack_cons {j : Json} {js : List Json} (hj : ReadBack j) (hjs : ItemsReadBack js) :
    ItemsReadBack (j :: js) := by
  intro stack before rest
  have hcomma : reads ⟨stack, .afterItem before⟩ (itemsThen (j :: js) (']' :: rest)) =
      reads ⟨stack, .nextItem before⟩ (j.writeThen (itemsThen js (']' :: rest))) := by
    rw [itemsThen]
    exact reads_cons _ rfl rfl
  rw [hcomma, hj _ _ _ (Pending.takes_nextItem stack before) (ends_itemsThen js rest)]
  have hitems := hjs stack (j.document :: before) rest
  rw [List.reverse_cons, List.append_assoc] at hitems
  exact hitems

theorem readBack_arr_nil : ReadBack (.arr []) := by
  intro p stack rest hp _
  rw [writeThen, reads_openList hp]
  exact reads_cons _ rfl rfl

theorem readBack_arr_cons {j : Json} {js : List Json} (hj : ReadBack j) (hjs : ItemsReadBack js) :
    ReadBack (.arr (j :: js)) := by
  intro p stack rest hp _
  rw [writeThen, reads_openList hp, hj _ _ _ (Pending.takes_firstItem stack) (ends_itemsThen js rest)]
  exact hjs stack [j.document] rest

theorem reads_field {j : Json} (hj : ReadBack j) {p : Pending} {stack : List Frame} {before : List Member} (k : String)
    (hp : p.step (.string (.ok k)) = ⟨stack, .colon before (.ok k)⟩) {rest : List Char} (hrest : Ends rest) :
    reads p (quoteThen k (':' :: j.writeThen rest)) =
      reads ⟨stack, .afterMember (.mk (.ok k) j.document :: before)⟩ rest := by
  have hcolon : reads ⟨stack, .colon before (.ok k)⟩ (':' :: j.writeThen rest) =
      reads ⟨.member before (.ok k) :: stack, .value⟩ (j.writeThen rest) := reads_cons _ rfl rfl
  rw [reads_quoteThen, hp, hcolon, hj _ _ _ (Pending.takes_value _) hrest]
  rfl

theorem fieldsReadBack_nil : FieldsReadBack [] := by
  intro stack before rest
  rw [fieldsThen, members, List.append_nil]
  exact reads_cons _ rfl rfl

theorem fieldsReadBack_cons (k : String) {j : Json} {fs : List (String × Json)} (hj : ReadBack j)
    (hfs : FieldsReadBack fs) : FieldsReadBack ((k, j) :: fs) := by
  intro stack before rest
  have hcomma : reads ⟨stack, .afterMember before⟩ (fieldsThen ((k, j) :: fs) ('\x7d' :: rest)) =
      reads ⟨stack, .nextKey before⟩ (quoteThen k (':' :: j.writeThen (fieldsThen fs ('\x7d' :: rest)))) := by
    rw [fieldsThen]
    exact reads_cons _ rfl rfl
  rw [hcomma, reads_field hj k rfl (ends_fieldsThen fs rest)]
  have hfields := hfs stack (.mk (.ok k) j.document :: before) rest
  rw [List.reverse_cons, List.append_assoc] at hfields
  exact hfields

theorem readBack_obj_nil : ReadBack (.obj []) := by
  intro p stack rest hp _
  rw [writeThen, reads_openObject hp]
  exact reads_cons _ rfl rfl

theorem readBack_obj_cons (k : String) {j : Json} {fs : List (String × Json)} (hj : ReadBack j)
    (hfs : FieldsReadBack fs) : ReadBack (.obj ((k, j) :: fs)) := by
  intro p stack rest hp _
  rw [writeThen, reads_openObject hp, reads_field hj k rfl (ends_fieldsThen fs rest)]
  exact hfs stack [.mk (.ok k) j.document] rest

/-! ## Whole texts -/

/-- **The text of every value is read as the value**: what holds of a list or an object is carried along with what holds
of its further items or fields, which its text is made of. -/
theorem readBack : ∀ j : Json, j.Fits → ReadBack j := by
  refine @Json.rec (fun j => j.Fits → ReadBack j) (fun js => FitsAll js → ItemsReadBack js ∧ ReadBack (.arr js))
    (fun fs => FitsFields fs → FieldsReadBack fs ∧ ReadBack (.obj fs)) (fun f => f.2.Fits → ReadBack f.2)
    ?null ?bool ?num ?str ?arr ?obj ?noItem ?item ?noField ?field ?pair
  case null => exact fun _ => readBack_null
  case bool => exact fun b _ => readBack_bool b
  case num => exact fun n hn => readBack_num hn
  case str => exact fun s _ => readBack_str s
  case arr => exact fun js ih hjs => (ih hjs).2
  case obj => exact fun fs ih hfs => (ih hfs).2
  case noItem => exact fun _ => ⟨itemsReadBack_nil, readBack_arr_nil⟩
  case item =>
    intro j js ihj ihjs ⟨hj, hjs⟩
    have hitems := (ihjs hjs).1
    exact ⟨itemsReadBack_cons (ihj hj) hitems, readBack_arr_cons (ihj hj) hitems⟩
  case noField => exact fun _ => ⟨fieldsReadBack_nil, readBack_obj_nil⟩
  case field =>
    intro f fs ihj ihfs ⟨hj, hfs⟩
    have hfields := (ihfs hfs).1
    exact ⟨fieldsReadBack_cons f.1 (ihj hj) hfields, readBack_obj_cons f.1 (ihj hj) hfields⟩
  case pair => exact fun k j ih hj => ih hj

theorem ofText_render (j : Json) (hj : j.Fits) : Document.ofText j.render = (j.document, false) := by
  have hread := readBack j hj ⟨[], .value⟩ [] [] (Pending.takes_value []) (by simp [Ends])
  rw [reads_nil] at hread
  rw [Document.ofText, render, String.toList_ofList, Document.ofTokens]
  exact congrArg Pending.close hread

end TreeEdit.Json
