import TreeEdit.Proofs.Json.Grammar
import TreeEdit.Proofs.Options.RoundTrip

/-!
# Loading options

Options are loaded from any text that gives some of them: in any order, with any blanks, and strings spelled in any way. What
is given is taken as it is, and what is not has its default. `Given` says which options are given, for each kind of them.

No text is accepted with a key that is unknown, or that comes twice: neither at the top nor among the options of the parser or
of the source map, whatever else is in it.
-/

namespace TreeEdit

open Json (Document Fault Member Shape given)

/-! ## What can be given -/

/-- Options of a tuple parser that are given. -/
structure Tuple.Given where
  delimiter : Option Char := none

structure Markdown.Given where
  gfm : Option Bool := none
  frontmatter : Option Bool := none
  math : Option Bool := none

/-- Options of a source map that are given. A name may be given as null, which is none. -/
structure MapOptions.Given where
  hires : Option Resolution := none
  file : Option (Option String) := none
  source : Option (Option String) := none
  includeContent : Option Bool := none

namespace Tuple.Given

def members (g : Given) : List Member :=
  given "delimiter" (g.delimiter.map fun c => .string (.ok (String.ofList [c])))

def options (g : Given) : Tuple.Options where
  delimiter := g.delimiter.getD ({} : Tuple.Options).delimiter

end Tuple.Given

namespace Markdown.Given

def members (g : Given) : List Member :=
  given "gfm" (g.gfm.map .bool) ++ (given "frontmatter" (g.frontmatter.map .bool) ++ given "math" (g.math.map .bool))

def options (g : Given) : Markdown.Options where
  gfm := g.gfm.getD ({} : Markdown.Options).gfm
  frontmatter := g.frontmatter.getD ({} : Markdown.Options).frontmatter
  math := g.math.getD ({} : Markdown.Options).math

end Markdown.Given

namespace MapOptions.Given

def members (g : Given) : List Member :=
  given "hires" (g.hires.map fun r => r.toJson.document) ++
    (given "file" (g.file.map fun name => (Json.option .str name).document) ++
      (given "source" (g.source.map fun name => (Json.option .str name).document) ++
        given "includeContent" (g.includeContent.map .bool)))

def options (g : Given) : MapOptions where
  hires := g.hires.getD ({} : MapOptions).hires
  file := g.file.getD ({} : MapOptions).file
  source := g.source.getD ({} : MapOptions).source
  includeContent := g.includeContent.getD ({} : MapOptions).includeContent

end MapOptions.Given

/-! ## Each kind of options -/

theorem Tuple.Given.read_members (g : Tuple.Given) {d : Document} (h : d.Has g.members) :
    Tuple.Options.read d = .ok g.options := by
  obtain ⟨delimiter⟩ := g
  have hpart := Shape.part_given_map (by decide) Options.set_delimiter delimiter
  refine (hpart.read (by decide) ?_ h {}).trans ?_
  · cases delimiter <;> simp
  · cases delimiter <;> rfl

theorem Markdown.Given.read_members (g : Markdown.Given) {d : Document} (h : d.Has g.members) :
    Markdown.Options.read d = .ok g.options := by
  obtain ⟨gfm, frontmatter, math⟩ := g
  have hgfm : ∀ b o, Options.shape.set "gfm" (.bool b) o = .ok { o with gfm := b } := fun _ _ => rfl
  have hfrontmatter : ∀ b o, Options.shape.set "frontmatter" (.bool b) o = .ok { o with frontmatter := b } := fun _ _ => rfl
  have hmath : ∀ b o, Options.shape.set "math" (.bool b) o = .ok { o with math := b } := fun _ _ => rfl
  have hpart := (Shape.part_given_map (by decide) hgfm gfm).append
    ((Shape.part_given_map (by decide) hfrontmatter frontmatter).append (Shape.part_given_map (by decide) hmath math))
  refine (hpart.read (by decide) ?_ h {}).trans ?_
  · cases gfm <;> cases frontmatter <;> cases math <;> simp
  · cases gfm <;> cases frontmatter <;> cases math <;> rfl

theorem MapOptions.Given.read_members (g : MapOptions.Given) {d : Document} (h : d.Has g.members) :
    MapOptions.shape.read {} d = .ok g.options := by
  obtain ⟨hires, file, source, includeContent⟩ := g
  have hcontent : ∀ b o, shape.set "includeContent" (.bool b) o = .ok { o with includeContent := b } := fun _ _ => rfl
  have hpart := (Shape.part_given_map (by decide) set_hires hires).append
    ((Shape.part_given_map (by decide) set_file file).append
      ((Shape.part_given_map (by decide) set_source source).append (Shape.part_given_map (by decide) hcontent includeContent)))
  refine (hpart.read (by decide) ?_ h {}).trans ?_
  · cases hires <;> cases file <;> cases source <;> cases includeContent <;> simp
  · cases hires <;> cases file <;> cases source <;> cases includeContent <;> rfl

/-! ## Whole options -/

namespace TransformOptions

/-- Options of a transformation that are given, where `P` is what can be given for its parser. -/
structure Given (P : Type) where
  parser : Option P := none
  map : Option MapOptions.Given := none

variable {α P : Type}

/-- The document gives just these options, in any order; `gives` is the same for the options of the parser. -/
def Given.In (gives : P → Document → Prop) (g : Given P) (d : Document) : Prop :=
  ∃ parser map : Option Document, Option.Rel gives g.parser parser ∧
    Option.Rel (fun m d => d.Has m.members) g.map map ∧ d.Has (given "parser" parser ++ given "sourceMap" map)

def Given.options (value : P → α) (default : α) (g : Given P) : TransformOptions α where
  parser := (g.parser.map value).getD default
  map := (g.map.map MapOptions.Given.options).getD {}

/-- A key is unknown or comes twice, at the top, among the options of the parser or among those of the source map. -/
def Spoilt (fields : List String) (ms : List Member) : Prop :=
  Json.Spoilt ["parser", "sourceMap"] ms ∨
  (∃ inner, .mk (.ok "parser") (.object inner .closed) ∈ ms ∧ Json.Spoilt fields inner) ∨
  ∃ inner, .mk (.ok "sourceMap") (.object inner .closed) ∈ ms ∧
    Json.Spoilt ["hires", "file", "source", "includeContent"] inner

variable {read : Document → Except Fault α} {default : α}

theorem Given.read_in {gives : P → Document → Prop} {value : P → α} (hread : ∀ p d, gives p d → read d = .ok (value p))
    (g : Given P) {d : Document} (h : g.In gives d) :
    (shape read).read { parser := default } d = .ok (g.options value default) := by
  obtain ⟨parser, map⟩ := g
  obtain ⟨parser', map', hparser, hmap, hd⟩ := h
  have hsetParser : ∀ p d, gives p d → ∀ o, (shape read).set "parser" d o = .ok { o with parser := value p } :=
    fun p d hp => set_parserOptions (hread p d hp)
  have hsetMap : ∀ (m : MapOptions.Given) (d : Document), d.Has m.members →
      ∀ o, (shape read).set "sourceMap" d o = .ok { o with map := m.options } :=
    fun m d hm => set_sourceMap (m.read_members hm)
  have hpart := (Shape.part_given List.mem_cons_self hsetParser hparser).append
    (Shape.part_given (List.mem_cons_of_mem _ List.mem_cons_self) hsetMap hmap)
  refine (hpart.read (by decide) ?_ hd { parser := default }).trans ?_
  · cases parser <;> cases map <;> simp
  · cases parser <;> cases map <;> rfl

theorem exists_of_map_eq_ok {β γ : Type} {f : β → γ} {result : Except Fault β} {c : γ} (h : result.map f = .ok c) :
    ∃ b, result = .ok b := by
  cases result with
  | error e => cases h
  | ok b => exact ⟨b, rfl⟩

theorem not_spoilt_of_read {fields : List String} {ms : List Member} {o : TransformOptions α}
    (hparser : ∀ inner p, read (.object inner .closed) = .ok p → ¬ Json.Spoilt fields inner)
    (h : (shape read).read { parser := default } (.object ms .closed) = .ok o) : ¬ Spoilt fields ms := by
  rintro (hspoilt | ⟨inner, hm, hspoilt⟩ | ⟨inner, hm, hspoilt⟩)
  · exact Shape.not_spoilt_of_read rfl h hspoilt
  · obtain ⟨r, r', hset⟩ := Shape.exists_set_of_read rfl h hm
    obtain ⟨p, hread⟩ := exists_of_map_eq_ok hset
    exact hparser inner p hread hspoilt
  · obtain ⟨r, r', hset⟩ := Shape.exists_set_of_read rfl h hm
    obtain ⟨m, hread⟩ := exists_of_map_eq_ok hset
    exact Shape.not_spoilt_of_read rfl hread hspoilt

/-- How options are loaded, where `fields` are those of the parser's options, `gives` says that a document gives some of them,
and `value` what they are then. -/
structure Loading (read : Document → Except Fault α) (default : α) (fields : List String) (gives : P → Document → Prop)
    (value : P → α) : Prop where
  /-- In any order, what is given is taken, and the rest has its defaults. -/
  given : ∀ (g : Given P) (text : String) (d : Document), Json.SaysSpaced text.toList d → g.In gives d →
    ofJson read default text = .ok (g.options value default)
  /-- Nothing else may be there, and nothing twice. -/
  strict : ∀ (text : String) (ms : List Member), Json.SaysSpaced text.toList (.object ms .closed) → Spoilt fields ms →
    ∃ message, ofJson read default text = .error (.config message)

theorem ofJson_of_text {text : String} {d : Document} (h : Json.SaysSpaced text.toList d) :
    ofJson read default text = ((shape read).read { parser := default } d).mapError fun f =>
      .config ("Invalid options: " ++ f.message) := by
  rw [ofJson, Json.readText, Json.ofText_of_spaced h]
  simp only
  cases (shape read).read { parser := default } d <;> rfl

theorem loading {fields : List String} {gives : P → Document → Prop} {value : P → α}
    (hread : ∀ p d, gives p d → read d = .ok (value p))
    (hparser : ∀ inner p, read (.object inner .closed) = .ok p → ¬ Json.Spoilt fields inner) :
    Loading read default fields gives value := by
  constructor
  · intro g text d htext hgiven
    rw [ofJson_of_text htext, g.read_in hread hgiven]
    rfl
  · intro text ms htext hspoilt
    rw [ofJson_of_text htext]
    cases h : (shape read).read { parser := default } (.object ms .closed) with
    | error f => exact ⟨_, rfl⟩
    | ok o => exact absurd hspoilt (not_spoilt_of_read hparser h)

end TransformOptions

/-- **Options are loaded in any order, with defaults, and strictly**, whatever parser they are for. From every text that gives
some options of the parser and of the source map, these and the defaults of the others are loaded, whatever the order and the
blanks; a text with an unknown key or one that comes twice is refused, wherever the key is and whatever else is there. -/
theorem options_loading :
    TransformOptions.Loading Tuple.Options.read {} ["delimiter"] (fun g d => d.Has g.members) Tuple.Given.options ∧
    TransformOptions.Loading Markdown.Options.read {} ["gfm", "frontmatter", "math"] (fun g d => d.Has g.members)
      Markdown.Given.options ∧
    TransformOptions.Loading Json.Document.readUnit () [] (fun (_ : Unit) d => d = .null) id := by
  refine ⟨?_, ?_, ?_⟩
  · exact TransformOptions.loading (fun g d h => g.read_members h) fun _ _ h => Shape.not_spoilt_of_read rfl h
  · exact TransformOptions.loading (fun g d h => g.read_members h) fun _ _ h => Shape.not_spoilt_of_read rfl h
  · refine TransformOptions.loading ?_ ?_
    · rintro p d rfl
      rfl
    · intro inner p h
      cases h

/-- A text with the source map first, a blank behind a key, and an escape. -/
def reorderedOptionsText : String :=
  "\x7b\"sourceMap\" : \x7b\x7d, \"parser\":\x7b\"delimiter\":\"\\u003b\"\x7d\x7d"

theorem options_loading_reordered :
    ∃ d, Json.SaysSpaced reorderedOptionsText.toList d ∧
      TransformOptions.Given.In (fun g d => d.Has g.members) ⟨some (Tuple.Given.mk (some ';')), some {}⟩ d ∧
      TransformOptions.ofJson Tuple.Options.read {} reorderedOptionsText = .ok ⟨⟨';'⟩, {}⟩ := by
  have hnone : Json.Blank [] := List.forall_mem_nil _
  have hblank : Json.Blank [' '] := by
    rintro c (_ | ⟨_, ⟨⟩⟩)
    rfl
  have hvalue : Json.SaysSpaced "\"\\u003b\"".toList (.string (.ok ";")) :=
    @Json.SaysSpaced.mk [] _ [] _ hnone (.string (@Json.Spells.unit '0' '0' '3' 'b' 0x3b [] [] rfl rfl rfl .nil)) hnone
  have hdelimiter := @Json.SaysMember.mk [] "delimiter".toList [] _ _ _ hnone (Json.spells_self rfl) hnone hvalue
  have hparser := @Json.SaysMember.mk [' '] "parser".toList [] _ _ _ hblank (Json.spells_self rfl) hnone
    (@Json.SaysSpaced.mk [] _ [] _ hnone (.object (.last hdelimiter)) hnone)
  have hmap := @Json.SaysMember.mk [] "sourceMap".toList [' '] _ _ _ hnone (Json.spells_self rfl) hblank
    (@Json.SaysSpaced.mk [' '] _ [] _ hblank (.noMembers hnone) hnone)
  have htext : Json.SaysSpaced reorderedOptionsText.toList _ :=
    @Json.SaysSpaced.mk [] _ [] _ hnone (.object (.cons hmap (.last hparser))) hnone
  have hgiven : TransformOptions.Given.In (fun g d => d.Has g.members) ⟨some (Tuple.Given.mk (some ';')), some {}⟩ _ :=
    ⟨some _, some _, .some ⟨_, .refl _, rfl⟩, .some ⟨_, .refl _, rfl⟩, _, .swap _ _ _, rfl⟩
  exact ⟨_, htext, hgiven, options_loading.1.given _ _ _ htext hgiven⟩

end TreeEdit
