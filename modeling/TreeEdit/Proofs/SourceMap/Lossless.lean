import Mathlib.Data.List.Basic
import TreeEdit.Proofs.Buffer.Checked
import TreeEdit.Proofs.SourceMap.Decoding
import TreeEdit.Proofs.SourceMap.Tracing

/-!
# Mappings in order, and their text

`Mapping.Trace` says that mappings are at characters of an edited text and lead to characters of the unedited text that it
stands for, never back. Each kind of piece has such mappings, pieces one after the other have them too
(`mappingsOf_trace`), and so has a buffer (`Buffer.Sound.mappings_trace`). As its mappings are in order, nothing of them is
lost in the text that the map has of them (`mappings_survive_text`).
-/

namespace TreeEdit

/-- From the cursor on, the mappings are at characters of an edited text and lead to characters of the unedited text that
it stands for, never back. -/
structure Mapping.Trace (cursor : Cursor) (edited original : List Char) (ms : List Mapping) : Prop where
  generated : ∀ m ∈ ms, cursor.generated.OfChar edited m.generated
  source : ∀ m ∈ ms, cursor.source.OfChar original m.source
  rising : ms.Pairwise (·.source.le ·.source)

namespace Mapping.Trace

variable {cursor : Cursor} {e e' o o' : List Char} {ms ms' : List Mapping}

theorem nil (cursor : Cursor) (e o : List Char) : Trace cursor e o [] :=
  ⟨by simp, by simp, .nil⟩

theorem append (h : Trace cursor e o ms) (h' : Trace (cursor.past e o) e' o' ms') :
    Trace cursor (e ++ e') (o ++ o') (ms ++ ms') where
  generated m hm := by
    rcases List.mem_append.mp hm with hm | hm
    · exact (h.generated m hm).append_left e'
    · exact (h'.generated m hm).append_right
  source m hm := by
    rcases List.mem_append.mp hm with hm | hm
    · exact (h.source m hm).append_left o'
    · exact (h'.source m hm).append_right
  rising := by
    refine List.pairwise_append.mpr ⟨h.rising, h'.rising, fun m hm m' hm' => ?_⟩
    exact Position.le_trans (h.source m hm).before.le (h'.source m' hm').le

theorem singleton (cursor : Cursor) (c d : Char) : Trace cursor [c] [d] [cursor.mapping] where
  generated _ hm := List.mem_singleton.mp hm ▸ Position.ofChar_cons _ c []
  source _ hm := List.mem_singleton.mp hm ▸ Position.ofChar_cons _ d []
  rising := List.pairwise_singleton _ _

end Mapping.Trace

open Mapping (Trace)

theorem mem_replacedMappings {source pos : Position} {due : Bool} {text : List Char} {m : Mapping}
    (h : m ∈ replacedMappings source pos due text) : m.source = source ∧ pos.OfChar text m.generated := by
  induction text generalizing pos due with
  | nil => cases h
  | cons c cs ih =>
    have hlater : ∀ {due'}, m ∈ replacedMappings source (pos.step c) due' cs →
        m.source = source ∧ pos.OfChar (c :: cs) m.generated := by
      intro due' hm
      obtain ⟨hsource, hchar⟩ := ih hm
      exact ⟨hsource, Position.OfChar.append_right (s := [c]) hchar⟩
    rw [replacedMappings] at h
    split at h
    · rcases List.mem_cons.mp h with rfl | h
      · exact ⟨rfl, Position.ofChar_cons _ _ _⟩
      · exact hlater h
    · exact hlater h

theorem replacedMappings_trace (cursor : Cursor) (due : Bool) (text : List Char) {original : List Char}
    (horiginal : original ≠ []) :
    Trace cursor text original (replacedMappings cursor.source cursor.generated due text) where
  generated m hm := (mem_replacedMappings hm).2
  source m hm := by
    obtain ⟨c, rest, rfl⟩ := List.exists_cons_of_ne_nil horiginal
    rw [(mem_replacedMappings hm).1]
    exact Position.ofChar_cons _ _ _
  rising := by
    refine List.pairwise_of_forall_mem_list fun m hm m' hm' => ?_
    rw [(mem_replacedMappings hm).1, (mem_replacedMappings hm').1]
    exact Position.le_refl _

theorem uneditedMappings_trace (r : Resolution) (cursor : Cursor) (before : Progress) (text : List Char) :
    Trace cursor text text (uneditedMappings r cursor before text) := by
  induction text generalizing cursor before with
  | nil => exact .nil _ _ _
  | cons c cs ih =>
    have hskip : ∀ before', Trace cursor (c :: cs) (c :: cs)
        (uneditedMappings r ⟨cursor.generated.step c, cursor.source.step c⟩ before' cs) := fun before' =>
      (Trace.nil cursor [c] [c]).append (ih _ before')
    rw [uneditedMappings]
    split
    · exact hskip _
    · split
      · exact (Trace.singleton cursor c c).append (ih ⟨_, _⟩ _)
      · exact hskip _

theorem Piece.mappings_trace (r : Resolution) (base : List Char) (cursor : Cursor) (p : Piece)
    (h : ∀ text span, p = .replaced text span → Text.between base span.start span.stop ≠ []) :
    Trace cursor p.text (p.original base) (p.mappings r cursor) := by
  cases p with
  | inserted text => exact .nil _ _ _
  | replaced text span => exact replacedMappings_trace cursor true text (h text span rfl)
  | unedited text => exact uneditedMappings_trace r cursor {} text

theorem mappingsOf_trace (r : Resolution) (base : List Char) (cursor : Cursor) {ps : List Piece}
    (h : ∀ text span, .replaced text span ∈ ps → Text.between base span.start span.stop ≠ []) :
    Trace cursor (Buffer.textOf ps) (originalOf base ps) (mappingsOf r base cursor ps) := by
  induction ps generalizing cursor with
  | nil => exact .nil _ _ _
  | cons p ps ih =>
    have hpiece := p.mappings_trace r base cursor fun text span heq => h text span (by simp [heq])
    have hrest := ih (p.advance base cursor) fun text span hmem => h text span (List.mem_cons_of_mem _ hmem)
    rw [p.advance_eq] at hrest
    rw [mappingsOf, p.advance_eq]
    exact hpiece.append hrest

theorem Text.between_ne_nil {t : List Char} {m n : Nat} (hm : isBoundary t m = true) (hn : isBoundary t n = true)
    (hlt : m < n) : between t m n ≠ [] := by
  obtain ⟨pre, mid, post, rfl, rfl, rfl⟩ := exists_cut hm hn (Nat.le_of_lt hlt)
  rw [between_size_append]
  rintro rfl
  simp at hlt

namespace Buffer

variable {b : Buffer}

theorem Sound.originalOf_allPieces (hb : b.Sound) : originalOf b.base b.allPieces = b.base := by
  have hwhole : Text.between b.base 0 b.size = b.base := by
    simpa [size] using Text.between_size_append [] b.base []
  have hlast : originalOf b.base (if 0 < b.size then b.insertionPiece b.size else []) = [] := by
    split
    · exact originalOf_insertionPiece _ _ _
    · rfl
  rw [allPieces, pieces, originalOf_append, originalOf_append, originalOf_insertionPiece, hlast,
    hb.originalOf_piecesFrom hb.free_size (Text.isBoundary_size _) 0 (Nat.zero_le _) b.free_zero
      (Text.isBoundary_zero _)]
  simpa using hwhole

/-- **The mappings of a buffer** are at characters of its code, and lead to characters of its unedited text. -/
theorem Sound.mappings_trace (hb : b.Sound) (r : Resolution) : Trace {} b.code b.base (b.mappings r) := by
  have hreplaced : ∀ text span, .replaced text span ∈ b.allPieces →
      Text.between b.base span.start span.stop ≠ [] := by
    intro text span hmem
    obtain ⟨s, hs, rfl⟩ := hb.span_of_mem_allPieces hmem
    obtain ⟨hstart, hstop⟩ := hb.replaced s hs
    exact Text.between_ne_nil hstart hstop s.start_lt_stop
  have htrace := mappingsOf_trace r b.base {} hreplaced
  rwa [hb.originalOf_allPieces] at htrace

end Buffer

theorem SourceMap.lookup_mappings (map : SourceMap) :
    ∃ members, map.toJson = .obj members ∧
      members.lookup "mappings" = some (.str (String.ofList (Segment.encode {} map.mappings))) := by
  refine ⟨_, rfl, ?_⟩
  cases map.file <;> cases map.content <;> rfl

/-- **Mappings are in order, and their text loses nothing.** The mappings of a buffer go up in the edited text, each at
one of its characters; they never go back in the unedited text, and lead to characters of it. So the text of the mappings
in the map is read back as just these mappings, each with the first source. -/
theorem mappings_survive_text {b : Buffer} {text : List Char} (options : MapOptions) (hb : b.EditedFrom text) :
    let map := SourceMap.ofBuffer options b
    map.mappings.Pairwise (·.generated.Before ·.generated) ∧
    (∀ m ∈ map.mappings, Position.OfChar {} b.code m.generated) ∧
    map.mappings.Pairwise (·.source.le ·.source) ∧
    (∀ m ∈ map.mappings, Position.OfChar {} text m.source) ∧
    ∃ members written, map.toJson = .obj members ∧ members.lookup "mappings" = some (.str written) ∧
      Segment.decode written.toList = some (map.mappings.map fun m => ⟨m.generated, some (0, m.source), none⟩) := by
  intro map
  have htrace := hb.sound.mappings_trace options.hires
  have hsorted : map.mappings.Pairwise (·.generated.Before ·.generated) := b.mappings_sorted options.hires
  have hlines : map.mappings.Pairwise (·.generated.line ≤ ·.generated.line) := by
    refine hsorted.imp fun {m m'} h => ?_
    unfold Position.Before at h
    omega
  rw [hb.base_eq] at htrace
  obtain ⟨members, hjson, hlookup⟩ := map.lookup_mappings
  refine ⟨hsorted, htrace.generated, htrace.rising, htrace.source, members, _, hjson, hlookup, ?_⟩
  rw [String.toList_ofList]
  exact Segment.decode_encode hlines

/-- A line without a mapping, and a source column that goes down. -/
theorem mappings_survive_text_two_lines :
    let text := "ab\ncd".toList
    let es : List Edit := [.overwrite ⟨1, 2⟩ (by decide) "(\n2\n".toList, .insert 4 "!\n".toList]
    let b := Buffer.after { base := text } es
    let map := SourceMap.ofBuffer { file := some "out" } b
    b.EditedFrom text ∧
      map.mappings = [⟨⟨0, 0⟩, ⟨0, 0⟩⟩, ⟨⟨0, 1⟩, ⟨0, 1⟩⟩, ⟨⟨1, 0⟩, ⟨0, 1⟩⟩, ⟨⟨3, 0⟩, ⟨1, 0⟩⟩, ⟨⟨4, 0⟩, ⟨1, 1⟩⟩] ∧
      (∀ m ∈ map.mappings, Position.OfChar {} text m.source) ∧
      ∃ members written, map.toJson = .obj members ∧ members.lookup "mappings" = some (.str written) ∧
        Segment.decode written.toList = some [⟨⟨0, 0⟩, some (0, ⟨0, 0⟩), none⟩, ⟨⟨0, 1⟩, some (0, ⟨0, 1⟩), none⟩,
          ⟨⟨1, 0⟩, some (0, ⟨0, 1⟩), none⟩, ⟨⟨3, 0⟩, some (0, ⟨1, 0⟩), none⟩, ⟨⟨4, 0⟩, some (0, ⟨1, 1⟩), none⟩] := by
  intro text es b map
  have hb : b.EditedFrom text := ⟨es, by decide, rfl⟩
  have hmappings : map.mappings =
      [⟨⟨0, 0⟩, ⟨0, 0⟩⟩, ⟨⟨0, 1⟩, ⟨0, 1⟩⟩, ⟨⟨1, 0⟩, ⟨0, 1⟩⟩, ⟨⟨3, 0⟩, ⟨1, 0⟩⟩, ⟨⟨4, 0⟩, ⟨1, 1⟩⟩] := by decide +kernel
  obtain ⟨-, -, -, hsource, members, written, hjson, hlookup, hdecode⟩ :=
    mappings_survive_text { file := some "out" } hb
  exact ⟨hb, hmappings, hsource, members, written, hjson, hlookup, hdecode.trans (by rw [hmappings]; rfl)⟩

end TreeEdit
