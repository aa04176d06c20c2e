import Mathlib.Data.List.Induction
import Mathlib.Data.Nat.Digits.Defs
import TreeEdit.Proofs.Tuple.Lexing
import TreeEdit.Tuple.Parser

/-!
# The grammar of nested integer tuples

`Derives` is the grammar, apart from the machine that reads it:

    program := group*
    group   := '(' [ item (delimiter item)* ] ')'
    item    := INTEGER | group

Each phrase comes with its tree, in which nodes have no spans; `Forms` is the same grammar for tokens at their places,
where they have. The machine reads every phrase (`Forms.readFrom`), and what it has read at any point is a beginning of
a program (`Read`, `Read.step`), so it accepts just the programs (`parseTokens_iff`). With the tokens of a text this
makes the parser exact (`parse_iff_derives`).
-/

namespace TreeEdit

namespace Tree

mutual

/-- The tree with the spans of its nodes left out. -/
def unplaced : Tree → Tree
  | ⟨kind, _, value, data, children⟩ => ⟨kind, .empty 0, value, data, unplacedList children⟩

def unplacedList : List Tree → List Tree
  | [] => []
  | t :: ts => t.unplaced :: unplacedList ts

end

theorem unplacedList_eq_map (ts : List Tree) : unplacedList ts = ts.map unplaced := by
  induction ts with
  | nil => rfl
  | cons t ts ih => rw [unplacedList, ih, List.map_cons]

end Tree

namespace Tuple

/-- The number that decimal digits stand for, by their places. -/
def value (digits : List Char) : Nat :=
  Nat.ofDigits 10 (digits.reverse.map fun c => c.toNat - '0'.toNat)

theorem decimal_eq_value (digits : List Char) : decimal digits = value digits := by
  induction digits using List.reverseRecOn with
  | nil => rfl
  | append_singleton digits c ih =>
    unfold decimal value at ih ⊢
    rw [List.foldl_append, ih]
    simp [Nat.ofDigits_cons]
    omega

/-! ## The grammar -/

def integerTree (digits : List Char) : Tree :=
  { kind := "integer", span := .empty 0, value := some (String.ofList digits), data := .integer (value digits) }

def groupTree (items : List Tree) : Tree :=
  { kind := "group", span := .empty 0, children := items }

def programTree (groups : List Tree) : Tree :=
  { kind := "program", span := .empty 0, children := groups }

/-- What tokens may form, with the tree or the trees of it. -/
inductive Phrase where
  | item (t : Tree)
  /-- Items with delimiters between them. -/
  | items (ts : List Tree)
  | group (t : Tree)
  | groups (ts : List Tree)
  | program (t : Tree)

/-- The grammar of tuples. -/
inductive Derives : Phrase → List Kind → Prop
  | integer {digits} (h : value digits ≤ 2 ^ 64 - 1) : Derives (.item (integerTree digits)) [.integer digits]
  | nested {t kinds} (h : Derives (.group t) kinds) : Derives (.item t) kinds
  | first {t kinds} (h : Derives (.item t) kinds) : Derives (.items [t]) kinds
  | next {ts t kinds kinds'} (hs : Derives (.items ts) kinds) (h : Derives (.item t) kinds') :
    Derives (.items (ts ++ [t])) (kinds ++ .delimiter :: kinds')
  | empty : Derives (.group (groupTree [])) [.opening, .closing]
  | filled {ts kinds} (h : Derives (.items ts) kinds) :
    Derives (.group (groupTree ts)) (.opening :: (kinds ++ [.closing]))
  | none : Derives (.groups []) []
  | more {ts t kinds kinds'} (hs : Derives (.groups ts) kinds) (h : Derives (.group t) kinds') :
    Derives (.groups (ts ++ [t])) (kinds ++ kinds')
  | program {ts kinds} (h : Derives (.groups ts) kinds) : Derives (.program (programTree ts)) kinds

/-- What tokens form when they are in their places: the grammar again, where each node has the span that its tokens
cover. -/
inductive Forms : Phrase → List Token → Prop
  | integer {digits span} (h : value digits ≤ 2 ^ 64 - 1) :
    Forms (.item { integerTree digits with span }) [⟨.integer digits, span⟩]
  | nested {t tokens} (h : Forms (.group t) tokens) : Forms (.item t) tokens
  | first {t tokens} (h : Forms (.item t) tokens) : Forms (.items [t]) tokens
  | next {ts t tokens tokens' span} (hs : Forms (.items ts) tokens) (h : Forms (.item t) tokens') :
    Forms (.items (ts ++ [t])) (tokens ++ ⟨.delimiter, span⟩ :: tokens')
  | empty {a b} : Forms (.group { groupTree [] with span := a.merge b }) [⟨.opening, a⟩, ⟨.closing, b⟩]
  | filled {ts tokens a b} (h : Forms (.items ts) tokens) :
    Forms (.group { groupTree ts with span := a.merge b }) (⟨.opening, a⟩ :: (tokens ++ [⟨.closing, b⟩]))
  | none : Forms (.groups []) []
  | more {ts t tokens tokens'} (hs : Forms (.groups ts) tokens) (h : Forms (.group t) tokens') :
    Forms (.groups (ts ++ [t])) (tokens ++ tokens')
  | program {ts tokens} (h : Forms (.groups ts) tokens) :
    Forms (.program { programTree ts with span := programSpan tokens }) tokens

/-- The tokens form the phrase, with some spans for its nodes. -/
def Phrase.FormedBy (tokens : List Token) : Phrase → Prop
  | .item t => ∃ u : Tree, u.unplaced = t ∧ Forms (.item u) tokens
  | .items ts => ∃ us : List Tree, us.map Tree.unplaced = ts ∧ Forms (.items us) tokens
  | .group t => ∃ u : Tree, u.unplaced = t ∧ Forms (.group u) tokens
  | .groups ts => ∃ us : List Tree, us.map Tree.unplaced = ts ∧ Forms (.groups us) tokens
  | .program t => ∃ u : Tree, u.unplaced = t ∧ Forms (.program u) tokens

theorem Derives.formedBy {p : Phrase} {kinds : List Kind} (h : Derives p kinds) {tokens : List Token}
    (htokens : tokens.map (·.kind) = kinds) : p.FormedBy tokens := by
  induction h generalizing tokens with
  | integer hvalue =>
    obtain ⟨⟨kind, span⟩, rfl, rfl⟩ := List.map_eq_singleton_iff.mp htokens
    exact ⟨_, rfl, .integer hvalue⟩
  | nested h ih =>
    obtain ⟨u, hu, hforms⟩ := ih htokens
    exact ⟨u, hu, hforms.nested⟩
  | first h ih =>
    obtain ⟨u, rfl, hforms⟩ := ih htokens
    exact ⟨[u], rfl, hforms.first⟩
  | next hs h ihs ih =>
    obtain ⟨before, rest, rfl, hbefore, hrest⟩ := List.map_eq_append_iff.mp htokens
    obtain ⟨⟨kind, span⟩, after, rfl, rfl, hafter⟩ := List.map_eq_cons_iff.mp hrest
    obtain ⟨us, rfl, hforms⟩ := ihs hbefore
    obtain ⟨u, rfl, hforms'⟩ := ih hafter
    exact ⟨us ++ [u], by simp, hforms.next hforms'⟩
  | empty =>
    obtain ⟨⟨kind, a⟩, rest, rfl, rfl, hrest⟩ := List.map_eq_cons_iff.mp htokens
    obtain ⟨⟨kind, b⟩, rfl, rfl⟩ := List.map_eq_singleton_iff.mp hrest
    exact ⟨_, rfl, .empty⟩
  | filled h ih =>
    obtain ⟨⟨kind, a⟩, rest, rfl, rfl, hrest⟩ := List.map_eq_cons_iff.mp htokens
    obtain ⟨inner, last, rfl, hinner, hlast⟩ := List.map_eq_append_iff.mp hrest
    obtain ⟨⟨kind, b⟩, rfl, rfl⟩ := List.map_eq_singleton_iff.mp hlast
    obtain ⟨us, rfl, hforms⟩ := ih hinner
    refine ⟨_, ?_, hforms.filled⟩
    simp [groupTree, Tree.unplaced, Tree.unplacedList_eq_map]
  | none =>
    obtain rfl := List.map_eq_nil_iff.mp htokens
    exact ⟨[], rfl, .none⟩
  | more hs h ihs ih =>
    obtain ⟨before, after, rfl, hbefore, hafter⟩ := List.map_eq_append_iff.mp htokens
    obtain ⟨us, rfl, hforms⟩ := ihs hbefore
    obtain ⟨u, rfl, hforms'⟩ := ih hafter
    exact ⟨us ++ [u], by simp, hforms.more hforms'⟩
  | program h ih =>
    obtain ⟨us, rfl, hforms⟩ := ih htokens
    refine ⟨_, ?_, hforms.program⟩
    simp [programTree, Tree.unplaced, Tree.unplacedList_eq_map]

/-! ## Every phrase is read -/

theorem foldlM_append_of_ok {s s' : State} {xs ys : List Token} (h : xs.foldlM State.step s = .ok s') :
    (xs ++ ys).foldlM State.step s = ys.foldlM State.step s' := by
  rw [List.foldlM_append, h]
  rfl

theorem foldlM_cons_of_ok {s s' : State} {t : Token} {ts : List Token} (h : s.step t = .ok s') :
    (t :: ts).foldlM State.step s = ts.foldlM State.step s' := by
  rw [List.foldlM_cons, h]
  rfl

/-- What the tokens of a phrase do to the state of the machine. -/
def Phrase.ReadFrom (tokens : List Token) : Phrase → Prop
  | .item t => ∀ s l ls, s.levels = l :: ls → s.due = true →
    tokens.foldlM State.step s = .ok { s with levels := { l with items := t :: l.items } :: ls, due := false }
  | .items ts => ∀ s l ls, s.levels = l :: ls → l.items = [] → s.due = true →
    tokens.foldlM State.step s = .ok { s with levels := { l with items := ts.reverse } :: ls, due := false }
  | .group t => ∀ s : State, s.levels = [] ∨ s.due = true →
    tokens.foldlM State.step s = .ok (s.finish s.levels t)
  | .groups ts => tokens.foldlM State.step {} = .ok { groups := ts.reverse }
  | .program t => ∀ len, parseTokens len tokens = .ok t

theorem integer_of_value {digits : List Char} (h : value digits ≤ 2 ^ 64 - 1) (span : Span) :
    integer digits span = .ok { integerTree digits with span } := by
  rw [← decimal_eq_value] at h
  unfold integer
  rw [if_pos (show decimal digits ≤ maxInteger from h), decimal_eq_value]
  rfl

theorem step_opening {s : State} {t : Token} (ht : t.kind = .opening) (h : s.levels = [] ∨ s.due = true) :
    s.step t = .ok { s with levels := ⟨t.span, []⟩ :: s.levels, due := true } := by
  obtain ⟨levels, due, groups⟩ := s
  unfold State.step
  cases levels with
  | nil => simp [ht]
  | cons l ls =>
    obtain rfl : due = true := by simpa using h
    simp [ht]

theorem step_closing {l : Level} {ls : List Level} {due : Bool} {groups : List Tree} {t : Token}
    (ht : t.kind = .closing) (h : due = false ∨ l.items = []) :
    State.step ⟨l :: ls, due, groups⟩ t = .ok (State.finish ⟨l :: ls, due, groups⟩ ls
      { groupTree l.items.reverse with span := l.opening.merge t.span }) := by
  unfold State.step
  rcases h with rfl | h
  · simp [ht, groupTree]
  · simp [ht, h, groupTree]

theorem Forms.readFrom {p : Phrase} {tokens : List Token} (h : Forms p tokens) : p.ReadFrom tokens := by
  induction h with
  | @integer digits span hvalue =>
    intro s l ls hlevels hdue
    have hstep : s.step ⟨.integer digits, span⟩ =
        .ok { s with levels := { l with items := { integerTree digits with span } :: l.items } :: ls, due := false } := by
      simp [State.step, hlevels, hdue, integer_of_value hvalue, Except.map]
    exact foldlM_cons_of_ok hstep
  | nested h ih =>
    intro s l ls hlevels hdue
    rw [ih s (.inr hdue), hlevels]
    rfl
  | first h ih =>
    intro s l ls hlevels hitems hdue
    rw [ih s l ls hlevels hdue, hitems]
    rfl
  | @next ts t tokens tokens' span hs h ihs ih =>
    intro s l ls hlevels hitems hdue
    have hstep : State.step { s with levels := { l with items := ts.reverse } :: ls, due := false }
        ⟨.delimiter, span⟩ = .ok { s with levels := { l with items := ts.reverse } :: ls, due := true } := by
      simp [State.step]
    rw [foldlM_append_of_ok (ihs s l ls hlevels hitems hdue), foldlM_cons_of_ok hstep, ih _ _ ls rfl rfl]
    simp
  | empty =>
    intro s hs
    rw [foldlM_cons_of_ok (step_opening rfl hs), foldlM_cons_of_ok (step_closing rfl (.inr rfl))]
    rfl
  | @filled ts tokens a b h ih =>
    intro s hs
    have hread := ih { s with levels := ⟨a, []⟩ :: s.levels, due := true } ⟨a, []⟩ s.levels rfl rfl rfl
    rw [foldlM_cons_of_ok (step_opening rfl hs), foldlM_append_of_ok hread,
      foldlM_cons_of_ok (step_closing rfl (.inl rfl))]
    simp only [List.reverse_reverse]
    rfl
  | none => rfl
  | @more ts t tokens tokens' hs h ihs ih =>
    have hread := ih { groups := ts.reverse } (.inl rfl)
    unfold Phrase.ReadFrom at ihs ⊢
    rw [foldlM_append_of_ok ihs, hread]
    simp [State.finish]
  | program h ih =>
    intro len
    unfold Phrase.ReadFrom at ih
    simp [parseTokens, ih, bind, Except.bind, programTree]

/-! ## What is read is the beginning of a program -/

/-- What has been read of a group that is due an item: nothing yet, or items and a delimiter. -/
inductive Due : List Tree → List Kind → Prop
  | first : Due [] []
  | later {ts kinds} (h : Derives (.items ts) kinds) : Due ts (kinds ++ [.delimiter])

/-- What has been read when all groups that are open are due an item, innermost first. -/
inductive Open (groups : List Tree) : List Level → List Kind → Prop
  | nil {kinds} (h : Derives (.groups (groups.reverse.map Tree.unplaced)) kinds) : Open groups [] kinds
  | cons {l ls kinds inner} (h : Open groups ls kinds) (hdue : Due (l.items.reverse.map Tree.unplaced) inner) :
    Open groups (l :: ls) (kinds ++ .opening :: inner)

/-- What has been read when the machine is in a state. -/
inductive Read : State → List Kind → Prop
  | due {levels due groups kinds} (h : Open groups levels kinds) (hdue : levels = [] ∨ due = true) :
    Read ⟨levels, due, groups⟩ kinds
  | full {l ls groups kinds inner} (h : Open groups ls kinds)
    (hitems : Derives (.items (l.items.reverse.map Tree.unplaced)) inner) :
    Read ⟨l :: ls, false, groups⟩ (kinds ++ .opening :: inner)

theorem Due.item {ts : List Tree} {t : Tree} {kinds kinds' : List Kind} (h : Due ts kinds)
    (ht : Derives (.item t) kinds') : Derives (.items (ts ++ [t])) (kinds ++ kinds') := by
  cases h with
  | first => exact .first ht
  | later h =>
    rw [List.append_assoc]
    exact .next h ht

theorem Derives.items_ne_nil {ts : List Tree} {kinds : List Kind} (h : Derives (.items ts) kinds) : ts ≠ [] := by
  cases h with
  | first => simp
  | next => simp

theorem Open.item {l : Level} {ls : List Level} {groups : List Tree} {kinds kinds' : List Kind} {u : Tree}
    (h : Open groups (l :: ls) kinds) (hu : Derives (.item u.unplaced) kinds') :
    Read ⟨{ l with items := u :: l.items } :: ls, false, groups⟩ (kinds ++ kinds') := by
  cases h with
  | cons h hdue =>
    have hitems := hdue.item hu
    rw [List.append_assoc, List.cons_append]
    refine .full h ?_
    simpa using hitems

theorem Open.group {s : State} {ls : List Level} {kinds kinds' : List Kind} {u : Tree}
    (h : Open s.groups ls kinds) (hu : Derives (.group u.unplaced) kinds') :
    Read (s.finish ls u) (kinds ++ kinds') := by
  cases ls with
  | nil =>
    cases h with
    | nil h =>
      refine .due (.nil ?_) (.inl rfl)
      simpa using h.more hu
  | cons l ls => exact h.item hu.nested

theorem derives_of_integer {digits : List Char} {span : Span} {u : Tree} (h : integer digits span = .ok u) :
    Derives (.item u.unplaced) [.integer digits] := by
  simp only [integer] at h
  split at h
  · rename_i hmax
    cases h
    rw [decimal_eq_value] at hmax ⊢
    exact .integer hmax
  · cases h

theorem Read.step {s s' : State} {kinds : List Kind} {t : Token} (h : Read s kinds) (hstep : s.step t = .ok s') :
    Read s' (kinds ++ [t.kind]) := by
  obtain ⟨kind, span⟩ := t
  cases h with
  | @due levels due groups kinds h hdue =>
    cases kind with
    | opening =>
      rw [step_opening rfl hdue] at hstep
      cases hstep
      exact .due (h.cons .first) (.inr rfl)
    | integer digits =>
      cases levels with
      | nil => cases hstep
      | cons l ls =>
        obtain rfl : due = true := by simpa using hdue
        simp only [State.step] at hstep
        cases hint : integer digits span with
        | error e => rw [hint] at hstep; cases hstep
        | ok u =>
          rw [hint] at hstep
          cases hstep
          exact h.item (derives_of_integer hint)
    | delimiter =>
      cases levels with
      | nil => cases hstep
      | cons l ls =>
        obtain rfl : due = true := by simpa using hdue
        cases hstep
    | closing =>
      cases levels with
      | nil => cases hstep
      | cons l ls =>
        obtain rfl : due = true := by simpa using hdue
        -- only an empty group may be closed where an item is due
        by_cases hitems : l.items = []
        · rw [step_closing rfl (.inr hitems)] at hstep
          cases hstep
          cases h with
          | @cons _ _ kinds inner h hinner =>
            rw [hitems] at hinner ⊢
            cases hinner with
            | first =>
              rw [List.append_assoc]
              exact h.group .empty
            | later hnone => exact absurd rfl hnone.items_ne_nil
        · simp [State.step, hitems] at hstep
  | @full l ls groups kinds inner h hitems =>
    rw [List.append_assoc, List.cons_append]
    cases kind with
    | opening => cases hstep
    | integer digits => cases hstep
    | delimiter =>
      cases hstep
      exact .due (h.cons (.later hitems)) (.inr rfl)
    | closing =>
      rw [step_closing rfl (.inl rfl)] at hstep
      cases hstep
      refine h.group ?_
      have hgroup := hitems.filled
      simpa [groupTree, Tree.unplaced, Tree.unplacedList_eq_map] using hgroup

theorem Read.run {s s' : State} {kinds : List Kind} {tokens : List Token} (h : Read s kinds)
    (hrun : tokens.foldlM State.step s = .ok s') : Read s' (kinds ++ tokens.map (·.kind)) := by
  induction tokens generalizing s kinds with
  | nil =>
    cases hrun
    simpa using h
  | cons t tokens ih =>
    rw [List.foldlM_cons] at hrun
    cases hstep : s.step t with
    | error e => rw [hstep] at hrun; cases hrun
    | ok s₁ =>
      rw [hstep] at hrun
      simpa using ih (h.step hstep) hrun

theorem Read.groups {due : Bool} {groups : List Tree} {kinds : List Kind} (h : Read ⟨[], due, groups⟩ kinds) :
    Derives (.groups (groups.reverse.map Tree.unplaced)) kinds := by
  cases h with
  | due h _ =>
    cases h with
    | nil h => exact h

/-- **The machine accepts programs**, and nothing else. -/
theorem parseTokens_iff {len : Nat} {tokens : List Token} {t : Tree} :
    (∃ u : Tree, u.unplaced = t ∧ parseTokens len tokens = .ok u) ↔ Derives (.program t) (tokens.map (·.kind)) := by
  constructor
  · rintro ⟨u, rfl, hparse⟩
    unfold parseTokens at hparse
    cases hrun : tokens.foldlM State.step {} with
    | error e => rw [hrun] at hparse; cases hparse
    | ok s =>
      rw [hrun] at hparse
      have hstart : Read ⟨[], false, []⟩ [] := .due (.nil .none) (.inl rfl)
      have hread := hstart.run hrun
      obtain ⟨levels, due, groups⟩ := s
      cases levels with
      | nil =>
        cases hparse
        simpa [programTree, Tree.unplaced, Tree.unplacedList_eq_map] using hread.groups.program
      | cons l ls => cases hparse
  · intro h
    obtain ⟨u, hu, hforms⟩ := h.formedBy rfl
    exact ⟨u, hu, hforms.readFrom len⟩

theorem forms_of_parseTokens {len : Nat} {tokens : List Token} {t : Tree} (h : parseTokens len tokens = .ok t) :
    Forms (.program t) tokens := by
  obtain ⟨u, -, hforms⟩ := (parseTokens_iff.mp ⟨t, rfl, h⟩).formedBy rfl
  -- the tokens form some program, and the machine gives the tree of that one
  have hread : parseTokens len tokens = .ok u := hforms.readFrom len
  cases h.symm.trans hread
  exact hforms

/-! ## The parser -/

theorem parse_eq_ok_iff {options : Options} {code : String} {t : Tree} :
    parse options code = .ok t ↔ Separates options.delimiter ∧
      ∃ tokens, tokenize options.delimiter code.toList = .ok tokens ∧
        parseTokens (Text.size code.toList) tokens = .ok t := by
  have hwords : parse options code = .ok t ↔ parseText options code.toList = .ok t := by
    unfold parse
    cases parseText options code.toList <;> simp [Except.mapError]
  rw [hwords, ← isDelimiter_iff]
  unfold parseText
  by_cases hd : isDelimiter options.delimiter = true
  · rw [if_pos hd]
    cases tokenize options.delimiter code.toList with
    | error e => simp [bind, Except.bind]
    | ok tokens => simp [bind, Except.bind, hd]
  · rw [if_neg hd]
    simp [hd]

/-- **The parser accepts its grammar.** A text has a tree just when the delimiter can be told from all else in it and
its tokens form a program. The tree, spans left out, is that of the program, and there is no other way to take the
text for tokens or the tokens for a program. -/
theorem parse_iff_derives (options : Options) (code : String) :
    ((∃ tree, parse options code = .ok tree) ↔ Separates options.delimiter ∧
      ∃ kinds tree, Spells options.delimiter code.toList kinds ∧ Derives (.program tree) kinds) ∧
    ∀ tree, parse options code = .ok tree → ∃ kinds, Spells options.delimiter code.toList kinds ∧
      Derives (.program tree.unplaced) kinds ∧
      ∀ kinds' tree', Spells options.delimiter code.toList kinds' → Derives (.program tree') kinds' →
        kinds' = kinds ∧ tree' = tree.unplaced := by
  constructor
  · constructor
    · rintro ⟨tree, hparse⟩
      obtain ⟨hd, tokens, htokens, hparse⟩ := parse_eq_ok_iff.mp hparse
      exact ⟨hd, _, _, (spells_iff hd).mpr ⟨tokens, htokens, rfl⟩, parseTokens_iff.mp ⟨tree, rfl, hparse⟩⟩
    · rintro ⟨hd, kinds, tree, hspells, hderives⟩
      obtain ⟨tokens, htokens, rfl⟩ := (spells_iff hd).mp hspells
      obtain ⟨u, -, hparse⟩ := parseTokens_iff.mpr hderives
      exact ⟨u, parse_eq_ok_iff.mpr ⟨hd, tokens, htokens, hparse⟩⟩
  · intro tree hparse
    obtain ⟨hd, tokens, htokens, hparse⟩ := parse_eq_ok_iff.mp hparse
    have hspells := (spells_iff hd).mpr ⟨tokens, htokens, rfl⟩
    refine ⟨_, hspells, parseTokens_iff.mp ⟨tree, rfl, hparse⟩, fun kinds' tree' hspells' hderives' => ?_⟩
    obtain rfl := hspells.unique hd hspells'
    -- whatever program the tokens form, the machine gives its tree
    obtain ⟨u, rfl, hparse'⟩ := parseTokens_iff.mpr hderives'
    cases hparse.symm.trans hparse'
    exact ⟨rfl, rfl⟩

end Tuple

end TreeEdit
