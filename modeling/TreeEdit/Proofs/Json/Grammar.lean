import TreeEdit.Proofs.Json.RoundTrip

/-!
# The texts of JSON

The rules of JSON as relations between characters and what they say. Blanks may be around every value, key and sign; a
character in a string may be spelled as it is or in several ways after a backslash; numbers may have a fraction and an
exponent. `SaysSpaced` is a whole text.

The reader goes by these rules: it reads every text as the document that it says, and finds nothing behind it
(`ofText_of_spaced`).
-/

namespace TreeEdit.Json

/-! ## Strings -/

/-- How the characters of a string can be spelled between its quotes. -/
inductive Spells : List Char → List Char → Prop
  | nil : Spells [] []
  | plain {c : Char} {cs s : List Char} (hquote : c ≠ '\x22') (hslash : c ≠ '\\') (hcontrol : ¬ c.toNat < 0x20)
    (h : Spells cs s) : Spells (c :: cs) (c :: s)
  | letter {l c : Char} {cs s : List Char} (hescape : simpleEscape? l = some c) (h : Spells cs s) :
    Spells ('\\' :: l :: cs) (c :: s)
  | unit {a b c d : Char} {n : Nat} {cs s : List Char} (hn : hex4? a b c d = some n) (hleading : isLeading n = false)
    (htrailing : isTrailing n = false) (h : Spells cs s) : Spells ('\\' :: 'u' :: a :: b :: c :: d :: cs) (Char.ofNat n :: s)
  /-- A character that takes two units of 16 bits. -/
  | pair {a b c d a' b' c' d' : Char} {n m : Nat} {cs s : List Char} (hn : hex4? a b c d = some n)
    (hleading : isLeading n = true) (hm : hex4? a' b' c' d' = some m) (htrailing : isTrailing m = true) (h : Spells cs s) :
    Spells ('\\' :: 'u' :: a :: b :: c :: d :: '\\' :: 'u' :: a' :: b' :: c' :: d' :: cs)
      (Char.ofNat ((n - 0xD800) * 0x400 + (m - 0xDC00) + 0x10000) :: s)

theorem spells_self {cs : List Char} (h : cs.all (fun c => c != '\x22' && c != '\\' && !Nat.blt c.toNat 0x20) = true) :
    Spells cs cs := by
  induction cs with
  | nil => exact .nil
  | cons c cs ih =>
    simp only [List.all_cons, Bool.and_eq_true, bne_iff_ne, Bool.not_eq_true', Bool.eq_false_iff, ne_eq, Nat.blt_eq] at h
    exact .plain h.1.1.1 h.1.1.2 h.1.2 (ih h.2)

theorem units_letter {l c : Char} (h : simpleEscape? l = some c) (cs : List Char) :
    units ('\\' :: l :: cs) = (.char c :: (units cs).1, (units cs).2) := by
  unfold simpleEscape? at h
  split at h <;> cases h <;> rfl

theorem units_unit {a b c d : Char} {n : Nat} (h : hex4? a b c d = some n) (cs : List Char) :
    units ('\\' :: 'u' :: a :: b :: c :: d :: cs) = (.unit n :: (units cs).1, (units cs).2) := by
  simp only [units, h]

theorem isTrailing_of_isLeading {n : Nat} (h : isLeading n = true) : isTrailing n = false := by
  simp only [isLeading, isTrailing, Bool.and_eq_true, decide_eq_true_eq, Bool.and_eq_false_iff, decide_eq_false_iff_not] at h ⊢
  omega

theorem units_of_spells {cs s : List Char} (h : Spells cs s) (rest : List Char) :
    (units (cs ++ '\x22' :: rest)).2 = (none, rest) ∧ join none (units (cs ++ '\x22' :: rest)).1 = .ok s := by
  induction h with
  | nil => exact ⟨rfl, rfl⟩
  | plain hquote hslash hcontrol _ ih =>
    rw [List.cons_append, units_cons hquote hslash hcontrol, join, ih.2]
    exact ⟨ih.1, rfl⟩
  | letter hescape _ ih =>
    rw [List.cons_append, List.cons_append, units_letter hescape, join, ih.2]
    exact ⟨ih.1, rfl⟩
  | unit hn hleading htrailing _ ih =>
    simp only [List.cons_append]
    rw [units_unit hn, join.eq_def]
    simp only [htrailing, hleading, ih.2]
    exact ⟨ih.1, rfl⟩
  | pair hn hleading hm htrailing _ ih =>
    simp only [List.cons_append]
    rw [units_unit hn, units_unit hm, join.eq_def]
    simp only [isTrailing_of_isLeading hleading, hleading, htrailing, ih.2]
    exact ⟨ih.1, rfl⟩

theorem cutString_of_spells {cs s : List Char} (h : Spells cs s) (rest : List Char) :
    cutString (cs ++ '\x22' :: rest) = (.string (.ok (String.ofList s)), rest) := by
  obtain ⟨hend, hjoin⟩ := units_of_spells h rest
  rw [Prod.ext_iff] at hend
  simp only [cutString, hend.1, hend.2, hjoin, Except.map]

/-! ## Numbers -/

/-- The exponent of a number. -/
structure Exponent where
  upper : Bool
  /-- Whether it goes down, if there is a sign. -/
  sign : Option Bool
  digits : List Char
  nonempty : digits ≠ []
  isDigit : ∀ c ∈ digits, c.isDigit = true

/-- A number as it is written, with an empty fraction if there is none. -/
structure Numeral where
  negative : Bool
  whole : List Char
  fraction : List Char
  exponent : Option Exponent
  nonempty : whole ≠ []
  isDigit : ∀ c ∈ whole ++ fraction, c.isDigit = true
  /-- There are no zeros in front. -/
  canonical : ∀ c cs, whole ≠ '0' :: c :: cs

namespace Exponent

def signed (e : Exponent) : List Char :=
  match e.sign with
  | none => e.digits
  | some false => '+' :: e.digits
  | some true => '-' :: e.digits

def text (e : Exponent) : List Char :=
  (if e.upper then 'E' else 'e') :: e.signed

def value (e : Exponent) : Int :=
  if e.sign = some true then -(Number.natOf e.digits : Int) else Number.natOf e.digits

end Exponent

namespace Numeral

def tail (n : Numeral) : List Char :=
  (if n.fraction = [] then [] else '.' :: n.fraction) ++ (n.exponent.elim [] Exponent.text)

def text (n : Numeral) : List Char :=
  (if n.negative then ['-'] else []) ++ n.whole ++ n.tail

/-- The number, which is not a whole one if there is a fraction or an exponent. -/
def value (n : Numeral) : Except Fault Number :=
  if n.fraction = [] ∧ n.exponent = none then Number.ofWhole n.negative n.whole
  else Number.ofParts n.negative n.whole n.fraction (n.exponent.elim 0 Exponent.value)

end Numeral

/-- What can come behind a number, which is all that does not go on with it. -/
def Stops (rest : List Char) : Prop :=
  ∀ c ∈ rest.head?, c.isDigit = false ∧ c ≠ '.' ∧ c ≠ 'e' ∧ c ≠ 'E'

theorem cutExponent_signed (negative : Bool) (whole fraction : List Char) (e : Exponent) {rest : List Char}
    (h : Stops rest) : Number.cutExponent negative whole fraction (e.signed ++ rest) =
      ⟨Number.ofParts negative whole fraction e.value, .ok (), rest⟩ := by
  have hdigits := digits_append e.isDigit fun c hc => (h c hc).1
  obtain ⟨upper, sign, ds, hnonempty, hds⟩ := e
  cases ds with
  | nil => exact absurd rfl hnonempty
  | cons d ds =>
    simp only [List.cons_append] at hdigits
    cases sign with
    | some down =>
      cases down <;>
      · simp only [Exponent.signed, List.cons_append, Number.cutExponent, hdigits]
        rfl
    | none =>
      have hd := hds d List.mem_cons_self
      have hplus : d ≠ '+' := by
        rintro rfl
        cases hd
      have hminus : d ≠ '-' := by
        rintro rfl
        cases hd
      simp [Exponent.signed, Exponent.value, Number.cutExponent, hplus, hminus, hdigits]

theorem Exponent.head_text (e : Exponent) (rest : List Char) : ∀ c ∈ (e.text ++ rest).head?, c.isDigit = false := by
  intro c hc
  rw [text, List.cons_append] at hc
  cases hc
  cases e.upper <;> rfl

theorem cutTail_exponent (negative : Bool) (whole : List Char) (e : Exponent) {rest : List Char} (h : Stops rest) :
    Number.cutTail negative whole (e.text ++ rest) = ⟨Number.ofParts negative whole [] e.value, .ok (), rest⟩ := by
  rw [← cutExponent_signed negative whole [] e h, Exponent.text]
  cases e.upper <;> rfl

theorem cutTail_fraction (negative : Bool) (whole : List Char) {fraction : List Char} (hnonempty : fraction ≠ [])
    (hdigit : ∀ c ∈ fraction, c.isDigit = true) (exponent : Option Exponent) {rest : List Char} (h : Stops rest) :
    Number.cutTail negative whole ('.' :: (fraction ++ (exponent.elim [] Exponent.text ++ rest))) =
      ⟨Number.ofParts negative whole fraction (exponent.elim 0 Exponent.value), .ok (), rest⟩ := by
  cases exponent with
  | none =>
    have hdigits := digits_append hdigit fun c hc => (h c hc).1
    cases fraction with
    | nil => exact absurd rfl hnonempty
    | cons f fs =>
      change Number.cutTail negative whole ('.' :: (f :: fs ++ rest)) = _
      rw [Number.cutTail, hdigits]
      cases rest with
      | nil => rfl
      | cons c cs =>
        obtain ⟨-, -, he, hE⟩ := h c rfl
        simp [he, hE]
  | some e =>
    have hdigits := digits_append hdigit (e.head_text rest)
    have hexponent := cutExponent_signed negative whole fraction e h
    cases fraction with
    | nil => exact absurd rfl hnonempty
    | cons f fs =>
      change Number.cutTail negative whole ('.' :: (f :: fs ++ (e.text ++ rest))) = _
      rw [Number.cutTail, hdigits, Exponent.text]
      cases e.upper <;> exact hexponent

theorem cutTail_tail (n : Numeral) {rest : List Char} (h : Stops rest) :
    Number.cutTail n.negative n.whole (n.tail ++ rest) = ⟨n.value, .ok (), rest⟩ := by
  rw [Numeral.tail, Numeral.value]
  by_cases hfraction : n.fraction = []
  · cases hexponent : n.exponent with
    | none =>
      simp only [hfraction, if_true, true_and, Option.elim, List.nil_append]
      cases rest with
      | nil => rfl
      | cons c cs =>
        obtain ⟨-, hdot, he, hE⟩ := h c rfl
        simp [Number.cutTail, hdot, he, hE]
    | some e => simpa [hfraction] using cutTail_exponent n.negative n.whole e h
  · have hdigit : ∀ c ∈ n.fraction, c.isDigit = true := fun c hc => n.isDigit c (List.mem_append_right _ hc)
    simpa [hfraction] using cutTail_fraction n.negative n.whole hfraction hdigit n.exponent h

theorem Numeral.head_tail (n : Numeral) {rest : List Char} (h : Stops rest) :
    ∀ c ∈ (n.tail ++ rest).head?, c.isDigit = false := by
  rw [tail]
  by_cases hfraction : n.fraction = []
  · cases n.exponent with
    | none =>
      rw [if_pos hfraction]
      exact fun c hc => (h c hc).1
    | some e =>
      rw [if_pos hfraction]
      exact e.head_text rest
  · intro c hc
    rw [if_neg hfraction] at hc
    cases hc
    rfl

theorem cut_numeral (n : Numeral) {rest : List Char} (h : Stops rest) :
    Number.cut n.negative (n.whole ++ (n.tail ++ rest)) = ⟨n.value, .ok (), rest⟩ := by
  have hdigit : ∀ c ∈ n.whole, c.isDigit = true := fun c hc => n.isDigit c (List.mem_append_left _ hc)
  have hdigits : Number.digits (n.whole ++ (n.tail ++ rest)) = (n.whole, n.tail ++ rest) :=
    digits_append hdigit (n.head_tail h)
  rw [Number.cut, hdigits]
  split
  · rename_i hnil
    exact absurd (congrArg Prod.fst hnil) n.nonempty
  · rename_i c cs rest' hzero
    exact absurd (congrArg Prod.fst hzero) (n.canonical c cs)
  · rename_i heq
    cases heq
    exact cutTail_tail n h

theorem reads_numeral (p : Pending) (n : Numeral) {rest : List Char} (h : Stops rest) :
    reads p (n.text ++ rest) = reads (p.step (.number n.value)) rest := by
  have hcut := cut_numeral n h
  rw [Numeral.text, List.append_assoc, List.append_assoc]
  cases hsign : n.negative with
  | true =>
    rw [hsign] at hcut
    have htoken : cutToken '-' (n.whole ++ (n.tail ++ rest)) = (.number n.value, rest) := by
      show numberToken (Number.cut true _) = _
      rw [hcut]
      rfl
    exact reads_cons p rfl htoken
  | false =>
    rw [hsign] at hcut
    cases hwhole : n.whole with
    | nil => exact absurd hwhole n.nonempty
    | cons c cs =>
      have hdigit : c.isDigit = true := n.isDigit c (by rw [hwhole]; exact List.mem_cons_self)
      have htoken : cutToken c (cs ++ (n.tail ++ rest)) = (.number n.value, rest) := by
        rw [cutToken_digit hdigit, ← List.cons_append, ← hwhole, hcut]
        rfl
      exact reads_cons p (isSpace_of_isDigit hdigit) htoken

/-! ## The grammar -/

def Blank (cs : List Char) : Prop :=
  ∀ c ∈ cs, isSpace c = true

def inQuotes (cs : List Char) : List Char :=
  '\x22' :: (cs ++ ['\x22'])

mutual

/-- What the text of a value says. -/
inductive Says : List Char → Document → Prop
  | null : Says "null".toList .null
  | yes : Says "true".toList (.bool true)
  | no : Says "false".toList (.bool false)
  | number (n : Numeral) : Says n.text (.number n.value)
  | string {cs s : List Char} (h : Spells cs s) : Says (inQuotes cs) (.string (.ok (String.ofList s)))
  | noItems {blanks : List Char} (h : Blank blanks) : Says ('[' :: (blanks ++ [']'])) (.list [] .closed)
  | list {cs : List Char} {ds : List Document} (h : SaysItems cs ds) : Says ('[' :: (cs ++ [']'])) (.list ds .closed)
  | noMembers {blanks : List Char} (h : Blank blanks) : Says ('\x7b' :: (blanks ++ ['\x7d'])) (.object [] .closed)
  | object {cs : List Char} {ms : List Member} (h : SaysMembers cs ms) :
    Says ('\x7b' :: (cs ++ ['\x7d'])) (.object ms .closed)

/-- What a text says that may have blanks around its value. -/
inductive SaysSpaced : List Char → Document → Prop
  | mk {before cs after : List Char} {d : Document} (hbefore : Blank before) (h : Says cs d) (hafter : Blank after) :
    SaysSpaced (before ++ (cs ++ after)) d

inductive SaysItems : List Char → List Document → Prop
  | last {cs : List Char} {d : Document} (h : SaysSpaced cs d) : SaysItems cs [d]
  | cons {cs more : List Char} {d : Document} {ds : List Document} (h : SaysSpaced cs d) (hmore : SaysItems more ds) :
    SaysItems (cs ++ ',' :: more) (d :: ds)

inductive SaysMember : List Char → Member → Prop
  | mk {before key after cs s : List Char} {d : Document} (hbefore : Blank before) (hkey : Spells key s)
    (hafter : Blank after) (h : SaysSpaced cs d) :
    SaysMember (before ++ (inQuotes key ++ (after ++ ':' :: cs))) (.mk (.ok (String.ofList s)) d)

inductive SaysMembers : List Char → List Member → Prop
  | last {cs : List Char} {m : Member} (h : SaysMember cs m) : SaysMembers cs [m]
  | cons {cs more : List Char} {m : Member} {ms : List Member} (h : SaysMember cs m) (hmore : SaysMembers more ms) :
    SaysMembers (cs ++ ',' :: more) (m :: ms)

end

/-! ## Reading by the grammar -/

theorem reads_blank (p : Pending) {blanks : List Char} (h : Blank blanks) (rest : List Char) :
    reads p (blanks ++ rest) = reads p rest := by
  induction blanks with
  | nil => rfl
  | cons c cs ih =>
    rw [← ih fun d hd => h d (List.mem_cons_of_mem c hd), reads, List.cons_append, lex, if_pos (h c List.mem_cons_self)]
    rfl

theorem stops_of_isSpace {c : Char} (h : isSpace c = true) (rest : List Char) : Stops (c :: rest) := by
  intro d hd
  cases hd
  simp only [isSpace, Bool.or_eq_true, beq_iff_eq] at h
  rcases h with ((rfl | rfl) | rfl) | rfl <;> decide

theorem stops_blank {blanks rest : List Char} (h : Blank blanks) (hrest : Stops rest) : Stops (blanks ++ rest) := by
  cases blanks with
  | nil => exact hrest
  | cons c cs => exact stops_of_isSpace (h c List.mem_cons_self) _

theorem stops_cons {c : Char} (h : c = ',' ∨ c = ']' ∨ c = '\x7d') (rest : List Char) : Stops (c :: rest) := by
  intro d hd
  cases hd
  rcases h with rfl | rfl | rfl <;> decide

theorem reads_inQuotes (p : Pending) {cs s : List Char} (h : Spells cs s) (rest : List Char) :
    reads p (inQuotes cs ++ rest) = reads (p.step (.string (.ok (String.ofList s)))) rest := by
  have hcut : cutToken '\x22' (cs ++ '\x22' :: rest) = (.string (.ok (String.ofList s)), rest) := cutString_of_spells h rest
  rw [inQuotes, List.cons_append, List.append_assoc]
  exact reads_cons p rfl hcut

/-- The reader is where a key may come. -/
def Pending.TakesKey (p : Pending) (stack : List Frame) (before : List Member) : Prop :=
  ∀ key, p.step (.string key) = ⟨stack, .colon before key⟩

/-- The text is read as the document, wherever a value may come. -/
def ReadAs (cs : List Char) (d : Document) : Prop :=
  ∀ (p : Pending) (stack : List Frame) (rest : List Char), p.Takes stack → Stops rest →
    reads p (cs ++ rest) = reads (.complete stack d) rest

def ItemsReadAs (cs : List Char) (ds : List Document) : Prop :=
  ∀ (p : Pending) (stack : List Frame) (before : List Document) (rest : List Char), p.Takes (.item before :: stack) →
    reads p (cs ++ ']' :: rest) = reads (.complete stack (.list (before.reverse ++ ds) .closed)) rest

def MemberReadAs (cs : List Char) (m : Member) : Prop :=
  ∀ (p : Pending) (stack : List Frame) (before : List Member) (rest : List Char), p.TakesKey stack before → Stops rest →
    reads p (cs ++ rest) = reads ⟨stack, .afterMember (m :: before)⟩ rest

def MembersReadAs (cs : List Char) (ms : List Member) : Prop :=
  ∀ (p : Pending) (stack : List Frame) (before : List Member) (rest : List Char), p.TakesKey stack before →
    reads p (cs ++ '\x7d' :: rest) = reads (.complete stack (.object (before.reverse ++ ms) .closed)) rest

theorem readAs_number (n : Numeral) : ReadAs n.text (.number n.value) := by
  intro p stack rest hp hrest
  rw [reads_numeral p n hrest, hp _ (by simp)]
  rfl

theorem readAs_string {cs s : List Char} (h : Spells cs s) : ReadAs (inQuotes cs) (.string (.ok (String.ofList s))) := by
  intro p stack rest hp _
  rw [reads_inQuotes p h, hp _ (by simp)]
  rfl

theorem readAs_spaced {before cs after : List Char} {d : Document} (hbefore : Blank before) (h : ReadAs cs d)
    (hafter : Blank after) : ReadAs (before ++ (cs ++ after)) d := by
  intro p stack rest hp hrest
  rw [List.append_assoc, List.append_assoc, reads_blank p hbefore, h p stack _ hp (stops_blank hafter hrest),
    reads_blank _ hafter]

theorem readAs_noItems {blanks : List Char} (h : Blank blanks) : ReadAs ('[' :: (blanks ++ [']'])) (.list [] .closed) := by
  intro p stack rest hp _
  rw [List.cons_append, List.append_assoc, reads_openList hp, reads_blank _ h]
  exact reads_cons _ rfl rfl

theorem readAs_list {cs : List Char} {ds : List Document} (h : ItemsReadAs cs ds) :
    ReadAs ('[' :: (cs ++ [']'])) (.list ds .closed) := by
  intro p stack rest hp _
  rw [List.cons_append, List.append_assoc, reads_openList hp]
  exact h _ stack [] rest (Pending.takes_firstItem stack)

theorem readAs_noMembers {blanks : List Char} (h : Blank blanks) :
    ReadAs ('\x7b' :: (blanks ++ ['\x7d'])) (.object [] .closed) := by
  intro p stack rest hp _
  rw [List.cons_append, List.append_assoc, reads_openObject hp, reads_blank _ h]
  exact reads_cons _ rfl rfl

theorem readAs_object {cs : List Char} {ms : List Member} (h : MembersReadAs cs ms) :
    ReadAs ('\x7b' :: (cs ++ ['\x7d'])) (.object ms .closed) := by
  intro p stack rest hp _
  rw [List.cons_append, List.append_assoc, reads_openObject hp]
  exact h _ stack [] rest fun _ => rfl

theorem itemsReadAs_last {cs : List Char} {d : Document} (h : ReadAs cs d) : ItemsReadAs cs [d] := by
  intro p stack before rest hp
  rw [h p _ _ hp (stops_cons (.inr (.inl rfl)) rest), ← List.reverse_cons]
  exact reads_cons _ rfl rfl

theorem itemsReadAs_cons {cs more : List Char} {d : Document} {ds : List Document} (h : ReadAs cs d)
    (hmore : ItemsReadAs more ds) : ItemsReadAs (cs ++ ',' :: more) (d :: ds) := by
  intro p stack before rest hp
  have hcomma : reads ⟨stack, .afterItem (d :: before)⟩ (',' :: (more ++ ']' :: rest)) =
      reads ⟨stack, .nextItem (d :: before)⟩ (more ++ ']' :: rest) := reads_cons _ rfl rfl
  have hitems := hmore _ stack (d :: before) rest (Pending.takes_nextItem stack _)
  rw [List.reverse_cons, List.append_assoc] at hitems
  rw [List.append_assoc, List.cons_append, h p _ _ hp (stops_cons (.inl rfl) _)]
  exact hcomma.trans hitems

theorem memberReadAs_mk {before key after cs s : List Char} {d : Document} (hbefore : Blank before) (hkey : Spells key s)
    (hafter : Blank after) (h : ReadAs cs d) :
    MemberReadAs (before ++ (inQuotes key ++ (after ++ ':' :: cs))) (.mk (.ok (String.ofList s)) d) := by
  intro p stack members rest hp hrest
  have hcolon : reads ⟨stack, .colon members (.ok (String.ofList s))⟩ (':' :: (cs ++ rest)) =
      reads ⟨.member members (.ok (String.ofList s)) :: stack, .value⟩ (cs ++ rest) := reads_cons _ rfl rfl
  simp only [List.append_assoc, List.cons_append]
  rw [reads_blank p hbefore, reads_inQuotes p hkey, hp, reads_blank _ hafter, hcolon,
    h _ _ rest (Pending.takes_value _) hrest]
  rfl

theorem membersReadAs_last {cs : List Char} {m : Member} (h : MemberReadAs cs m) : MembersReadAs cs [m] := by
  intro p stack before rest hp
  rw [h p _ _ _ hp (stops_cons (.inr (.inr rfl)) rest), ← List.reverse_cons]
  exact reads_cons _ rfl rfl

theorem membersReadAs_cons {cs more : List Char} {m : Member} {ms : List Member} (h : MemberReadAs cs m)
    (hmore : MembersReadAs more ms) : MembersReadAs (cs ++ ',' :: more) (m :: ms) := by
  intro p stack before rest hp
  have hcomma : reads ⟨stack, .afterMember (m :: before)⟩ (',' :: (more ++ '\x7d' :: rest)) =
      reads ⟨stack, .nextKey (m :: before)⟩ (more ++ '\x7d' :: rest) := reads_cons _ rfl rfl
  have hmembers := hmore ⟨stack, .nextKey (m :: before)⟩ stack (m :: before) rest fun _ => rfl
  rw [List.reverse_cons, List.append_assoc] at hmembers
  rw [List.append_assoc, List.cons_append, h p _ _ _ hp (stops_cons (.inl rfl) _)]
  exact hcomma.trans hmembers

/-- **The reader goes by the grammar**: there is one case for each rule. -/
theorem readAs_of_spaced {cs : List Char} {d : Document} (h : SaysSpaced cs d) : ReadAs cs d := by
  refine @SaysSpaced.rec (fun cs d _ => ReadAs cs d) (fun cs d _ => ReadAs cs d) (fun cs ds _ => ItemsReadAs cs ds)
    (fun cs m _ => MemberReadAs cs m) (fun cs ms _ => MembersReadAs cs ms) ?null ?yes ?no ?number ?string ?noItems ?list
    ?noMembers ?object ?spaced ?lastItem ?item ?member ?lastMember ?members cs d h
  case null => exact fun _ _ rest hp _ => reads_null hp rest
  case yes => exact fun _ _ rest hp _ => reads_true hp rest
  case no => exact fun _ _ rest hp _ => reads_false hp rest
  case number => exact readAs_number
  case string => exact readAs_string
  case noItems => exact readAs_noItems
  case list => exact fun _ ih => readAs_list ih
  case noMembers => exact readAs_noMembers
  case object => exact fun _ ih => readAs_object ih
  case spaced => exact fun hbefore _ hafter ih => readAs_spaced hbefore ih hafter
  case lastItem => exact fun _ ih => itemsReadAs_last ih
  case item => exact fun _ _ ih ihmore => itemsReadAs_cons ih ihmore
  case member => exact fun hbefore hkey hafter _ ih => memberReadAs_mk hbefore hkey hafter ih
  case lastMember => exact fun _ ih => membersReadAs_last ih
  case members => exact fun _ _ ih ihmore => membersReadAs_cons ih ihmore

theorem ofText_of_spaced {text : String} {d : Document} (h : SaysSpaced text.toList d) : Document.ofText text = (d, false) := by
  have hread := readAs_of_spaced h ⟨[], .value⟩ [] [] (Pending.takes_value []) (by simp [Stops])
  rw [List.append_nil, reads_nil] at hread
  rw [Document.ofText, Document.ofTokens]
  exact congrArg Pending.close hread

end TreeEdit.Json
