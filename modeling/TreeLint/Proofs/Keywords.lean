/-
# Two notions of case for one keyword

A keyword is found by folding its letters and then read by putting its letters in
lower case. The two differ where a character that is no ASCII letter folds to one:
the long s folds to `s`, and the Kelvin sign to `k`. No keyword has a `k`, so the
reader misses exactly those keywords that the scanner finds with a long s in them
(`CharClass.Folds.map_lower_eq_iff`).

A `disable` with a long s is therefore read as a `restore`, and an object keyword
with a long s as no kind of object. That is also the only way in which a source
can have an object type that is unknown (`keywords_read_unless_longS`).

Key theorems: `CharClass.Folds.map_lower_eq_iff`, `Source.folds_of_objectHeader`,
`Source.longS_of_unknownObject`, `keywords_read_unless_longS`.
-/
import TreeLint.Proofs.DirectiveLines
import TreeLint.Proofs.Totality

namespace TreeLint

open Cells (ofChars)
open CharClass (Folds folds lower longS kelvin)

namespace CharClass

variable {word cs : List Char}

/-- What folds to a letter other than `k` is that letter in ASCII, unless it is the long s. -/
theorem lower_eq_iff_of_folds {k c : Char} (hk : 'a' ≤ k ∧ k ≤ 'z') (hne : k ≠ 'k')
    (h : folds k c = true) : lower c = k ↔ c ≠ longS := by
  have hcases : lower c = k ∨ k = 's' ∧ c = longS := by
    simpa [folds, hne] using h
  constructor
  · rintro hlower rfl
    have hlong : lower longS = longS := by decide
    rw [hlong] at hlower
    rw [← hlower] at hk
    exact absurd hk (by decide)
  · intro hlong
    exact hcases.resolve_right fun h => hlong h.2

/-- **A word in some case is in ASCII case exactly if it has no long s.** -/
theorem Folds.map_lower_eq_iff (hword : Source.Lettered word) (hk : 'k' ∉ word)
    (h : Folds word cs) : cs.map lower = word ↔ longS ∉ cs := by
  have hletters := hword.2
  clear hword
  induction h with
  | nil => simp
  | @cons k c word cs hfolds _ ih =>
    rw [List.forall_mem_cons] at hletters
    rw [List.mem_cons, not_or] at hk
    have hrest : cs.map lower = word ↔ longS ∉ cs := ih hk.2 hletters.2
    rw [List.map_cons, List.cons.injEq, lower_eq_iff_of_folds hletters.1 (Ne.symm hk.1) hfolds,
      hrest, List.mem_cons, not_or, ne_comm]

end CharClass

namespace Pragma

theorem DirectiveLine.action_eq (d : DirectiveLine) :
    d.action = if Folds "disable".toList d.keyword ∧ longS ∉ d.keyword then .disable
      else .restore := by
  have hspelled : d.keyword.map lower = "disable".toList ↔
      Folds "disable".toList d.keyword ∧ longS ∉ d.keyword := by
    have hiff : Folds "disable".toList d.keyword →
        (d.keyword.map lower = "disable".toList ↔ longS ∉ d.keyword) :=
      CharClass.Folds.map_lower_eq_iff (lettered_words _ (by decide)) (by decide)
    constructor
    · intro h
      have hfolds := CharClass.folds_of_map_lower h
      exact ⟨hfolds, (hiff hfolds).mp h⟩
    · rintro ⟨hfolds, hlong⟩
      exact (hiff hfolds).mpr hlong
  rw [DirectiveLine.action]
  simp only [hspelled]

end Pragma

namespace Source

/-! ### The kinds that keywords name -/

theorem isSome_of_mem_objectKeywords : ∀ w ∈ objectKeywords,
    (SymbolKind.ofObjectKeyword? w).isSome = true := by decide +kernel

theorem ofObjectKeyword?_of_longS {word : String} (h : longS ∈ word.toList) :
    SymbolKind.ofObjectKeyword? word = none := by
  have hnames : ∀ k ∈ SymbolKind.objects, longS ∉ (Name.lower k.name).toList := by decide
  have hword : longS ∈ (Name.lower word).toList := by
    rw [Name.lower, String.toList_ofList]
    exact List.mem_map.mpr ⟨longS, h, by decide⟩
  rw [SymbolKind.ofObjectKeyword?, List.find?_eq_none]
  intro k hk hsame
  rw [← beq_iff_eq.mp hsame] at hword
  exact hnames k hk hword

/-- **What is found as an object keyword names the kind of that keyword**, unless it has a
long s. -/
theorem ofObjectKeyword?_of_folds {w word : String} (hw : w ∈ objectKeywords)
    (h : Folds w.toList word.toList) :
    SymbolKind.ofObjectKeyword? word =
      if longS ∈ word.toList then none else SymbolKind.ofObjectKeyword? w := by
  split
  · rename_i hlong
    exact ofObjectKeyword?_of_longS hlong
  · rename_i hlong
    have hk : ∀ w ∈ objectKeywords, 'k' ∉ w.toList := by decide
    have hfixed : ∀ w ∈ objectKeywords, Name.lower w = w := by decide
    have hlower : Name.lower word = w := by
      rw [Name.lower, (h.map_lower_eq_iff (lettered_objectKeywords w hw) (hk w hw)).mpr hlong,
        String.ofList_toList]
    rw [SymbolKind.ofObjectKeyword?, SymbolKind.ofObjectKeyword?, hlower, hfixed w hw]

/-! ### The keywords that are found -/

theorem folds_of_word? {cs : Cells} {stop : Nat} {c d : Cursor} (hcs : cs.Whole)
    (hstop : cs.isBoundary stop = true) (h : c.Stands cs stop) {w : List Char}
    (hd : c.word? w = some d) : Folds w (cs.slice (c.upTo d)).text.toList := by
  obtain ⟨l, hl⟩ : ∃ l, cs.slice ⟨c.pos, stop⟩ = ofChars l := hcs.slice h.boundary hstop
  have hc : c = ⟨c.before, c.pos, ofChars l⟩ := by
    rw [← hl, ← h.rest_eq]
  rw [hc] at hd
  obtain ⟨front, back, rfl, hfolds, rfl⟩ := Cursor.word?_ofChars_iff.mp hd
  have hparts : cs = cs.take c.pos ++ (ofChars front ++ (ofChars back ++ cs.drop stop)) :=
    calc cs = cs.take c.pos ++ cs.drop c.pos := (List.take_append_drop c.pos cs).symm
      _ = cs.take c.pos ++ (cs.slice ⟨c.pos, stop⟩ ++ (cs.drop c.pos).drop (stop - c.pos)) := by
        simp only [Cells.slice, List.take_append_drop]
      _ = cs.take c.pos ++ (ofChars front ++ (ofChars back ++ cs.drop stop)) := by
        rw [hl, Cells.ofChars_append, List.append_assoc, List.drop_drop,
          Nat.add_sub_cancel' h.pos_le]
  have hlength : (cs.take c.pos).length = c.pos :=
    List.length_take_of_le (Cells.le_length_of_isBoundary h.boundary)
  rw [Cells.slice_of_append hparts hlength.symm (by rw [hlength]; rfl), Cells.text_ofChars,
    String.toList_ofList]
  exact hfolds

theorem folds_of_objectHeader {cs : Cells} {stop : Nat} {c d : Cursor} (hcs : cs.Whole)
    (hstop : cs.isBoundary stop = true) (h : c.In cs stop) {v : ObjectHeader}
    (hd : objectHeader c = some (v, d)) :
    ∃ w ∈ objectKeywords, Folds w.toList (cs.slice v.keyword).text.toList := by
  unfold objectHeader at hd
  split at hd
  · rename_i hedge
    have hc : c.Stands cs stop := ⟨h, h.isBoundary_of_atWordEdge hcs hstop hedge⟩
    obtain ⟨w, hw, hd⟩ := List.exists_of_findSome?_eq_some hd
    simp only [Option.bind_eq_bind, Option.bind_eq_some_iff, Prod.exists] at hd
    obtain ⟨e, he, c₁, -, name, c₂, -, hd⟩ := hd
    refine ⟨w, hw, ?_⟩
    have hfolds := folds_of_word? hcs hstop hc he
    split at hd
    · cases hd
      exact hfolds
    · cases hd
      exact hfolds
  · cases hd

section Headers

variable {S : Cells} {t : Text} (ht : t.Copies S)
include ht

theorem folds_of_mem_headers {h : Found ObjectHeader}
    (hmem : h ∈ objectHeader.all ⟨none, 0, t.bare⟩) :
    ∃ w ∈ objectKeywords, Folds w.toList (t.bare.slice h.value.keyword).text.toList := by
  obtain ⟨c, d, hc, -, -, hmatch, -⟩ := foundFrom_of_mem_headers ht hmem
  exact folds_of_objectHeader ht.bare.whole (Cells.isBoundary_length _) hc hmatch

theorem mem_of_mem_text_slice {r : Extent} {x : Char} (hx : x ∈ (t.bare.slice r).text.toList)
    (hne : x ≠ ' ') : x ∈ S.text.toList := by
  rw [Cells.text, String.toList_ofList, Cells.chars] at hx ⊢
  obtain ⟨y, hy, rfl⟩ := List.mem_map.mp hx
  obtain ⟨hy, hlead⟩ := List.mem_filter.mp hy
  have hbare : y ∈ t.bare := List.mem_of_mem_drop (List.mem_of_mem_take hy)
  obtain ⟨i, hi⟩ := List.mem_iff_getElem?.mp hbare
  have hsource : y ∈ S := List.mem_of_getElem? (ht.bare.getElem?_of_ne_space hi hne)
  exact List.mem_map.mpr ⟨y, List.mem_filter.mpr ⟨hsource, hlead⟩, rfl⟩

theorem longS_of_objectSite {h : Found ObjectHeader}
    (hmem : h ∈ objectHeader.all ⟨none, 0, t.bare⟩) {word : String}
    (hsite : objectSite t h = .error (.unknownObject word)) :
    longS ∈ word.toList ∧ longS ∈ S.text.toList ∧
      ∃ w ∈ objectKeywords, Folds w.toList word.toList := by
  obtain heq | heq | ⟨heq, hnone⟩ := objectSite_eq_error hsite
  · cases heq
  · cases heq
  · obtain rfl := ResolveError.unknownObject.inj heq
    obtain ⟨w, hw, hfolds⟩ := folds_of_mem_headers ht hmem
    have hlong : longS ∈ (t.bare.slice h.value.keyword).text.toList := by
      by_contra hnot
      rw [ofObjectKeyword?_of_folds hw hfolds, if_neg hnot] at hnone
      have hsome := isSome_of_mem_objectKeywords w hw
      rw [hnone] at hsome
      cases hsome
    exact ⟨hlong, mem_of_mem_text_slice ht hlong (by decide), w, hw, hfolds⟩

end Headers

/-- **An object type is unknown only for a long s**: the unknown word is an object keyword in some
case, and it has a long s, which stands in the source. -/
theorem longS_of_unknownObject {path source word : String}
    (h : resolve path source = .error (.unknownObject word)) :
    longS ∈ word.toList ∧ longS ∈ source.toList ∧
      ∃ w ∈ objectKeywords, Folds w.toList word.toList := by
  have ht := Text.copies_ofCells (Cells.whole_ofString source)
  rcases resolve_eq_error h with hobjects | ⟨d, defect, -, -, hdefect⟩
  · rcases resolveObjects_eq_error hobjects with hroutine | ⟨header, hmem, hsite⟩
    · cases hroutine
    · have hlong := longS_of_objectSite ht hmem hsite
      rwa [Cells.text_ofString] at hlong
  · cases hdefect

end Source

/-- **Keywords are read as they are found, unless they have a long s.** For every source: the
directives are its lines that are made of the parts of one, and a directive disables exactly if its
keyword is found as `disable` and has no long s. The keyword of an object header is found as one of
the object keywords; it is read as the kind that this keyword names if it has no long s, and as no
kind if it has one. So resolving a source says that an object type is unknown only of an object
keyword with a long s. -/
theorem keywords_read_unless_longS (source : String) :
    (∀ p, p ∈ Pragma.parse source ↔
      ∃ before, ∃ d : Pragma.DirectiveLine, Pragma.LineAt source.toList before d.chars ∧
        p = ⟨if Folds "disable".toList d.keyword ∧ longS ∉ d.keyword then .disable else .restore,
          d.ids, before.count '\n' + 1, (String.ofList before).utf8ByteSize⟩) ∧
    (∀ h ∈ Source.objectHeader.all
        ⟨none, 0, (Source.Text.ofCells (Cells.ofString source)).bare⟩,
      ∃ word,
        word = ((Source.Text.ofCells (Cells.ofString source)).bare.slice h.value.keyword).text ∧
        ∃ w ∈ Source.objectKeywords, Folds w.toList word.toList ∧
          (SymbolKind.ofObjectKeyword? w).isSome = true ∧
          SymbolKind.ofObjectKeyword? word =
            if longS ∈ word.toList then none else SymbolKind.ofObjectKeyword? w) ∧
    ∀ path word, Source.resolve path source = .error (.unknownObject word) →
      longS ∈ word.toList ∧ longS ∈ source.toList ∧
        ∃ w ∈ Source.objectKeywords, Folds w.toList word.toList := by
  refine ⟨fun p => ?_, fun h hmem => ?_, fun path word h => Source.longS_of_unknownObject h⟩
  · rw [Pragma.mem_parse_iff]
    simp only [Pragma.DirectiveLine.action_eq]
  · have ht := Source.Text.copies_ofCells (Cells.whole_ofString source)
    obtain ⟨w, hw, hfolds⟩ := Source.folds_of_mem_headers ht hmem
    exact ⟨_, rfl, w, hw, hfolds, Source.isSome_of_mem_objectKeywords w hw,
      Source.ofObjectKeyword?_of_folds hw hfolds⟩

/-- The object type of a permission set is unknown if it is written with a long s. -/
theorem unknown_permissionSet :
    Source.resolve "a.al" "permi\u017fsionset 1 P\n\x7b\x7d" =
        .error (.unknownObject "permi\u017fsionset") ∧
      longS ∈ "permi\u017fsionset".toList ∧
      ∃ w ∈ Source.objectKeywords, Folds w.toList "permi\u017fsionset".toList := by
  have hunknown : Source.resolve "a.al" "permi\u017fsionset 1 P\n\x7b\x7d" =
      .error (.unknownObject "permi\u017fsionset") := by rfl
  obtain ⟨-, -, hreason⟩ := keywords_read_unless_longS "permi\u017fsionset 1 P\n\x7b\x7d"
  obtain ⟨hlong, -, hword⟩ := hreason "a.al" _ hunknown
  exact ⟨hunknown, hlong, hword⟩

/-- A `disable` with a long s is found as a `disable` and read as a `restore`, and an object keyword
with a long s is found as that keyword and read as no kind of object. -/
theorem longS_misread :
    (∃ d : Pragma.DirectiveLine, Pragma.LineAt "#pragma warning di\u017fable".toList [] d.chars ∧
      Folds "disable".toList d.keyword) ∧
    Pragma.parse "#pragma warning di\u017fable" = [⟨.restore, [], 1, 0⟩] ∧
    Folds "enumextension".toList "enumexten\u017fion".toList ∧
    Source.resolve "a.al" "enumexten\u017fion 1 A\n\x7b\x7d" =
      .error (.unknownObject "enumexten\u017fion") := by
  refine ⟨⟨⟨[], "pragma".toList, [' '], "warning".toList, [' '], "di\u017fable".toList, [],
    by decide, by decide, by decide, by decide, by decide, by decide, by decide, by decide,
    by decide⟩, (Pragma.lineAt_iff_of_not_mem (by decide)).mpr ⟨rfl, by decide⟩, by decide⟩,
    by decide, by decide, rfl⟩

end TreeLint
