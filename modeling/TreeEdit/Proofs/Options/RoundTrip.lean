import TreeEdit.Options.Reader
import TreeEdit.Proofs.Json.Records
import TreeEdit.Proofs.Json.RoundTrip

/-!
# Options survive their text

Options are written with all their fields and read field by field, each kind by a reader of its own. A record whose
fields were written in the order in which they are declared is read by setting them one after the other
(`Shape.read_written`). So what was written is read back as it was (`options_survive_json`): the options of each parser,
whatever the source map's are, and spans.
-/

namespace TreeEdit

namespace Json

theorem readText_render {α : Type} (reader : Document → Except Fault α) {j : Json} (hj : j.Fits) :
    readText reader j.render = reader j.document := by
  rw [readText, ofText_render j hj]
  simp only
  cases reader j.document <;> rfl

/-! ## Records -/

namespace Shape

variable {σ : Type} {shape : Shape σ} {record record' : σ} {fs : List (String × Json)}

theorem readMembers_written {seen : List String} (hknown : ∀ f ∈ fs, f.1 ∈ shape.fields)
    (hnew : ((fs.map Prod.fst).reverse ++ seen).Nodup)
    (hset : fs.foldlM (fun r f => shape.set f.1 f.2.document r) record = .ok record') :
    shape.readMembers seen record (members fs) = .ok ((fs.map Prod.fst).reverse ++ seen, record') := by
  induction fs generalizing seen record with
  | nil =>
    cases hset
    rfl
  | cons f fs ih =>
    obtain ⟨k, j⟩ := f
    rw [List.map_cons, List.reverse_cons, List.append_assoc, List.singleton_append] at hnew ⊢
    have hseen : k ∉ seen := (List.nodup_cons.mp (List.nodup_append.mp hnew).2.1).1
    rw [List.foldlM_cons] at hset
    cases hfirst : shape.set k j.document record with
    | error e =>
      rw [hfirst] at hset
      cases hset
    | ok first =>
      rw [hfirst] at hset
      have hrest := ih (fun f hf => hknown f (List.mem_cons_of_mem _ hf)) hnew hset
      rw [members, readMembers_cons (hknown (k, j) List.mem_cons_self) hseen hfirst]
      exact hrest

theorem read_written (hnames : fs.map Prod.fst = shape.fields) (hnodup : shape.fields.Nodup)
    (hset : fs.foldlM (fun r f => shape.set f.1 f.2.document r) record = .ok record') :
    shape.read record (Json.obj fs).document = .ok record' ∧
      shape.readWhole record (Json.obj fs).document = .ok record' := by
  have hmembers : shape.readMembers [] record (members fs) = .ok (shape.fields.reverse, record') := by
    have hknown : ∀ f ∈ fs, f.1 ∈ shape.fields := fun f hf => hnames ▸ List.mem_map_of_mem hf
    have hnew : ((fs.map Prod.fst).reverse ++ []).Nodup := by
      rw [hnames, List.append_nil]
      exact (List.reverse_perm _).nodup_iff.mpr hnodup
    have hread := readMembers_written hknown hnew hset
    rwa [hnames, List.append_nil] at hread
  have hall : (shape.fields.find? fun f => !shape.fields.reverse.contains f) = none := by
    simp [List.find?_eq_none]
  constructor
  · rw [document, read, hmembers]
    rfl
  · rw [document, readWhole, hmembers]
    simp only [bind, Except.bind, Ending.objectFault?, Document.passIf, hall]
    rfl

end Shape

end Json

/-! ## Options and spans -/

theorem Json.Document.readChar_string (c : Char) : readChar (.string (.ok (String.ofList [c]))) = .ok c := by
  simp [readChar]

theorem Json.Document.readOptionString_option (s : Option String) :
    (Json.option .str s).document.readOptionString = .ok s := by
  cases s <;> rfl

theorem Tuple.Options.set_delimiter (c : Char) (o : Tuple.Options) :
    shape.set "delimiter" (.string (.ok (String.ofList [c]))) o = .ok { o with delimiter := c } := by
  show Except.map _ (Json.Document.readChar _) = _
  rw [Json.Document.readChar_string]
  rfl

theorem Tuple.Options.read_toJson (o : Tuple.Options) : read o.toJson.document = .ok o := by
  refine (Json.Shape.read_written rfl (by decide) ?_).1
  rw [List.foldlM_cons, Json.document, set_delimiter]
  rfl

theorem Markdown.Options.read_toJson (o : Markdown.Options) : read o.toJson.document = .ok o :=
  (Json.Shape.read_written rfl (by decide) rfl).1

theorem Resolution.read_toJson (r : Resolution) : Resolution.read r.toJson.document = .ok r := by
  cases r <;> rfl

theorem MapOptions.fits_toJson (o : MapOptions) : o.toJson.Fits := by
  have hhires : o.hires.toJson.Fits := by cases o.hires <;> trivial
  have hstring : ∀ s : Option String, (Json.option .str s).Fits := by
    intro s
    cases s <;> trivial
  exact ⟨hhires, hstring o.file, hstring o.source, trivial, trivial⟩

theorem MapOptions.set_hires (r : Resolution) (o : MapOptions) :
    shape.set "hires" r.toJson.document o = .ok { o with hires := r } := by
  show Except.map _ (Resolution.read _) = _
  rw [Resolution.read_toJson]
  rfl

theorem MapOptions.set_file (name : Option String) (o : MapOptions) :
    shape.set "file" (Json.option .str name).document o = .ok { o with file := name } := by
  show Except.map _ (Json.Document.readOptionString _) = _
  rw [Json.Document.readOptionString_option]
  rfl

theorem MapOptions.set_source (name : Option String) (o : MapOptions) :
    shape.set "source" (Json.option .str name).document o = .ok { o with source := name } := by
  show Except.map _ (Json.Document.readOptionString _) = _
  rw [Json.Document.readOptionString_option]
  rfl

theorem MapOptions.read_toJson (o : MapOptions) : MapOptions.shape.read {} o.toJson.document = .ok o := by
  refine (Json.Shape.read_written rfl (by decide) ?_).1
  simp only [List.foldlM_cons, set_hires, set_file, set_source]
  rfl

theorem TransformOptions.set_parserOptions {α : Type} {read : Json.Document → Except Json.Fault α} {d : Json.Document} {p : α}
    (h : read d = .ok p) (o : TransformOptions α) : (shape read).set "parser" d o = .ok { o with parser := p } := by
  show Except.map _ (read _) = _
  rw [h]
  rfl

theorem TransformOptions.set_sourceMap {α : Type} {read : Json.Document → Except Json.Fault α} {d : Json.Document}
    {m : MapOptions} (h : MapOptions.shape.read {} d = .ok m) (o : TransformOptions α) :
    (shape read).set "sourceMap" d o = .ok { o with map := m } := by
  show Except.map _ (MapOptions.shape.read _ _) = _
  rw [h]
  rfl

theorem TransformOptions.ofJson_render {α : Type} {toJson : α → Json} {read : Json.Document → Except Json.Fault α}
    (hfits : ∀ a, (toJson a).Fits) (hread : ∀ a, read (toJson a).document = .ok a) (default : α)
    (o : TransformOptions α) : ofJson read default (o.toJson toJson).render = .ok o := by
  have hparser := set_parserOptions (hread o.parser)
  have hsource := @set_sourceMap _ read _ _ o.map.read_toJson
  have hwritten : (shape read).read { parser := default } (o.toJson toJson).document = .ok o := by
    have hnodup : ["parser", "sourceMap"].Nodup := by decide
    refine (Json.Shape.read_written rfl hnodup ?_).1
    simp only [List.foldlM_cons, hparser, hsource]
    rfl
  have hobject : (o.toJson toJson).Fits := ⟨hfits o.parser, o.map.fits_toJson, trivial⟩
  rw [ofJson, Json.readText_render _ hobject, hwritten]
  rfl

theorem Json.Document.readWord_nat {n : Nat} (h : n < Nat.pow 2 32) : (Json.nat n).document.readWord = .ok n := by
  show (if n < Nat.pow 2 32 then _ else _) = _
  rw [if_pos h]

theorem Span.ofJson_render {s : Span} (hstart : s.start < Nat.pow 2 32) (hstop : s.stop < Nat.pow 2 32) :
    Span.ofJson s.toJson.render = .ok s := by
  have hword : ∀ n, n < Nat.pow 2 32 → (Json.nat n).Fits := by
    intro n hn
    have hle : Nat.pow 2 32 ≤ Json.Number.maxWord := by decide
    exact Nat.le_trans (Nat.le_of_lt hn) hle
  have hfits : s.toJson.Fits := ⟨hword _ hstart, hword _ hstop, trivial⟩
  have hfirst : ∀ t, shape.set "start" (Json.nat s.start).document t = .ok { t with start := s.start } := by
    intro t
    show Except.map _ (Json.Document.readWord _) = _
    rw [Json.Document.readWord_nat hstart]
    rfl
  have hsecond : ∀ t, shape.set "end" (Json.nat s.stop).document t = .ok { t with stop := s.stop } := by
    intro t
    show Except.map _ (Json.Document.readWord _) = _
    rw [Json.Document.readWord_nat hstop]
    rfl
  have hnodup : ["start", "end"].Nodup := by decide
  rw [ofJson, Json.readText_render _ hfits]
  refine (Json.Shape.read_written rfl hnodup ?_).2
  simp only [List.foldlM_cons, hfirst, hsecond]
  rfl

/-- **Options survive their JSON form.** The options of a transformation, whatever parser they are for, which delimiter
or extensions it is given, and how the source map is to be made, are what is read from the text that is written of
them. So is every span whose ends have 32 bits, in whichever order they are. -/
theorem options_survive_json :
    (∀ o : TransformOptions Tuple.Options,
      TransformOptions.ofJson Tuple.Options.read {} (o.toJson Tuple.Options.toJson).render = .ok o) ∧
    (∀ o : TransformOptions Markdown.Options,
      TransformOptions.ofJson Markdown.Options.read {} (o.toJson Markdown.Options.toJson).render = .ok o) ∧
    (∀ o : TransformOptions Unit,
      TransformOptions.ofJson Json.Document.readUnit () (o.toJson fun _ => .null).render = .ok o) ∧
    ∀ start stop : UInt32,
      Span.ofJson (Span.toJson ⟨start.toNat, stop.toNat⟩).render = .ok ⟨start.toNat, stop.toNat⟩ := by
  refine ⟨fun o => ?_, fun o => ?_, fun o => ?_, fun start stop => ?_⟩
  · have hfits : ∀ p : Tuple.Options, p.toJson.Fits := fun _ => ⟨trivial, trivial⟩
    exact o.ofJson_render hfits Tuple.Options.read_toJson {}
  · have hfits : ∀ p : Markdown.Options, p.toJson.Fits := fun _ => ⟨trivial, trivial, trivial, trivial⟩
    exact o.ofJson_render hfits Markdown.Options.read_toJson {}
  · have hfits : ∀ p : Unit, Json.Fits ((fun _ => .null) p) := fun _ => trivial
    exact o.ofJson_render hfits (fun _ => rfl) ()
  · exact Span.ofJson_render start.toNat_lt stop.toNat_lt

end TreeEdit
