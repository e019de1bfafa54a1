/-
# Routines without a body

A signature ends at the next semicolon behind its parameters, wherever that one is,
and at the closing parenthesis if there is none. So a signature without a semicolon
of its own reaches to the next one behind it, at the end of a later signature or
between the parameters of one, and the signatures up to there are not found.

The induction over a listing carries along whether its first signature is hidden in
that way (`Source.exists_routinesOf_listing`). All signatures are found exactly if
each one without a semicolon of its own has none behind it
(`Source.methods_of_listing`).

Key definitions: `Source.semicolonIn?`, `Source.foundExtents`.
Key theorems: `Source.routineBody_tail`, `Source.exists_routinesOf_listing`,
`Source.map_start_foundExtents_iff`, `Source.methods_of_listing`.
-/
import TreeLint.Proofs.Homes
import TreeLint.Proofs.SignatureTexts

namespace TreeLint
namespace Source

open Cells (ofChars lastOr)
open CharClass (HasWord isWord)
open Cursor (behind)

/-! ### Where a signature ends -/

namespace WrittenSignature

variable (d : WrittenSignature)

/-- Where the parameters end in a signature at `q`. -/
def closeAt (q : Nat) : Nat := d.openAt q + (ofChars d.parameters.scanned).length

theorem headerAt_lt_closeAt (q : Nat) : d.headerAt q < d.closeAt q := by
  have hword : 0 < (ofChars (d.header d.name.blanked)).length :=
    List.length_pos_iff.mpr (mt Cells.ofChars_eq_nil_iff.mp (by simp [header]))
  rw [closeAt, openAt]
  omega

theorem closeAt_add_tail (q : Nat) : d.closeAt q + (ofChars (d.tail d.result.scanned)).length =
    d.nextAt q := by
  simp only [closeAt, openAt, headerAt, nextAt, scanned, Cells.ofChars_append, List.length_append,
    Nat.add_assoc]

theorem semicolon_mem_scanned : ';' ∈ d.scanned ↔ d.hasSemicolon = true := by
  have hspace : ∀ s : Space, ';' ∉ s.chars := fun s h => absurd (s.all_blank _ h) (by decide)
  have hword : ';' ∉ d.word := fun h =>
    absurd (d.folds_word.isWord_of_mem (by decide) _ h) (by decide)
  have hname : ';' ∉ d.name.blanked := by
    cases d.name with
    | plain name _ all_word _ => exact fun h => absurd (all_word _ h) (by decide)
    | quoted content enclosed =>
      intro h
      simp only [WrittenName.blanked, List.mem_cons, List.mem_append, List.mem_flatMap,
        List.not_mem_nil, or_false] at h
      rcases h with h | ⟨c, -, h⟩ | h
      · exact absurd h (by decide)
      · rw [blankedChar] at h
        split at h
        · rename_i hc
          rw [← List.mem_singleton.mp h] at hc
          exact absurd hc (by decide)
        · exact absurd (List.eq_of_mem_replicate h) (by decide)
      · exact absurd h (by decide)
  have hmark : ';' ∈ d.mark ↔ d.ended = true := by
    rw [mark]
    split <;> simp_all
  simp only [scanned, header, tail, List.mem_append, List.mem_cons, hspace, hword, hname, hmark,
    d.no_semicolon, hasSemicolon, Bool.or_eq_true, List.contains_iff_mem]
  simp [or_comm]

end WrittenSignature

/-- The first semicolon in signatures of which the first is at `q`. -/
def semicolonIn? : Nat → List WrittenSignature → Option Nat
  | _, [] => none
  | q, d :: ds => (Cells.findChar? ';' q (ofChars d.scanned)).or (semicolonIn? (d.nextAt q) ds)

theorem findChar?_isSome_eq_contains (ch : Char) (q : Nat) (cs : List Char) :
    (Cells.findChar? ch q (ofChars cs)).isSome = cs.contains ch := by
  rw [Bool.eq_iff_iff, Cells.findChar?_isSome_iff, List.contains_iff_mem]
  constructor
  · rintro ⟨x, hx, rfl⟩
    exact Cells.char_mem_of_mem_ofChars hx
  · intro h
    refine ⟨⟨ch, true⟩, List.mem_flatMap.mpr ⟨ch, h, List.mem_cons_self⟩, rfl⟩

theorem findChar?_scanned_isSome (q : Nat) (d : WrittenSignature) :
    (Cells.findChar? ';' q (ofChars d.scanned)).isSome = d.hasSemicolon := by
  rw [findChar?_isSome_eq_contains, Bool.eq_iff_iff, List.contains_iff_mem, d.semicolon_mem_scanned]

theorem semicolonIn?_isSome (q : Nat) (ds : List WrittenSignature) :
    (semicolonIn? q ds).isSome = ds.any (·.hasSemicolon) := by
  induction ds generalizing q with
  | nil => rfl
  | cons d ds ih => rw [semicolonIn?, Option.isSome_or, ih, findChar?_scanned_isSome, List.any_cons]

theorem findChar?_listing (q : Nat) (ds : List WrittenSignature) (ending : Space) :
    Cells.findChar? ';' q (ofChars (listing ds ending)) = semicolonIn? q ds := by
  induction ds generalizing q with
  | nil =>
    have hnone : (Cells.findChar? ';' q (ofChars ending.chars)).isSome = false := by
      rw [findChar?_isSome_eq_contains, ← Bool.not_eq_true, List.contains_iff_mem]
      exact fun h => absurd (ending.all_blank _ h) (by decide)
    exact Option.not_isSome_iff_eq_none.mp (Bool.eq_false_iff.mp hnone)
  | cons d ds ih =>
    rw [listing_cons, Cells.ofChars_append, Cells.findChar?_append_or, semicolonIn?]
    exact congrArg _ (ih _)

namespace WrittenSignature

variable (d : WrittenSignature)

/-- Where the routine of a signature at `q` ends, with the signatures behind it: behind its
semicolon, or else behind the next one, or else behind its parameters. -/
def stopAt (q : Nat) (ds : List WrittenSignature) : Nat :=
  if d.ended then d.closeAt q + 1 + (ofChars d.result.scanned).length + 1
  else (semicolonIn? (d.nextAt q) ds).getD (d.closeAt q) + 1

end WrittenSignature

/-- The extents, from their headers on, of the routines that are found in signatures of which the
first is at `q` and may be hidden. -/
def foundExtents : Nat → Bool → List WrittenSignature → List Extent
  | _, _, [] => []
  | q, true, d :: ds => foundExtents (d.nextAt q) (!d.hasSemicolon) ds
  | q, false, d :: ds =>
    ⟨d.headerAt q, d.stopAt q ds⟩ ::
      foundExtents (d.nextAt q) (!d.ended && ds.any (·.hasSemicolon)) ds

/-- The headers of all signatures, of which the first is at `q`. -/
def headerOffsets : Nat → List WrittenSignature → List Nat
  | _, [] => []
  | q, d :: ds => d.headerAt q :: headerOffsets (d.nextAt q) ds

/-! ### One signature -/

section Signature

variable {t : Text} {before : Option Cell} {pos : Nat} {front : List Char}
  (d : WrittenSignature) (ds : List WrittenSignature) (ending : Space)

/-- Up to the next header, if there is one, no more than white space stands behind a signature. -/
theorem next_signature {close : Cursor}
    (hclose : close = behind before pos front (d.tail d.result.scanned ++ listing ds ending)) :
    ∃ s : Space, routineHeader.first? close = none ∧
        close = behind before pos front (d.tail d.result.scanned ++ s.chars) ∨
      ∃ f, routineHeader.first? close = some f ∧ close.stopAt f.extent.start =
        behind before pos front (d.tail d.result.scanned ++ s.chars) := by
  subst hclose
  have hfront : (lastOr before (ofChars (front ++ d.tail d.result.scanned))).any Cell.isWord =
      false := by
    rw [Cells.ofChars_append, Cells.lastOr_append]
    exact (Cells.any_lastOr_of_ne_nil (List.cons_ne_nil _ _)).trans (d.not_isWord_getLast?_tail _)
  have hfirst : routineHeader.first?
      (behind before pos front (d.tail d.result.scanned ++ listing ds ending)) =
        (foundHeaders (pos + (ofChars (front ++ d.tail d.result.scanned)).length) ds).head? := by
    rw [Pattern.first?_eq_head?, all_routineHeader_tail, all_routineHeader_listing ds ending hfront]
  rw [hfirst]
  cases ds with
  | nil => exact ⟨ending, Or.inl ⟨rfl, rfl⟩⟩
  | cons d' ds =>
    refine ⟨d'.lead, Or.inr ⟨_, rfl, ?_⟩⟩
    have hsplit : d.tail d.result.scanned ++ listing (d' :: ds) ending =
        (d.tail d.result.scanned ++ d'.lead.chars) ++ (d'.header d'.name.blanked ++
          (d'.parameters.scanned ++ d'.tail d'.result.scanned) ++ listing ds ending) := by
      rw [listing_cons, WrittenSignature.scanned]
      simp only [List.append_assoc]
    rw [hsplit]
    refine Cursor.stopAt_behind before pos front _ _ ?_
    simp only [WrittenSignature.found, WrittenSignature.headerAt, Cells.ofChars_append,
      List.length_append, Nat.add_assoc]

/-- **Behind its parameters a signature has no body and no local variables**, and it ends where its
semicolon or the next one does. -/
theorem routineBody_tail {q : Nat} (hq : pos + (ofChars front).length = d.closeAt q) :
    t.routineBody (behind before pos front (d.tail d.result.scanned ++ listing ds ending)) =
      .ok (none, none, d.stopAt q ds) := by
  have hbegin : ∀ s : Space, (keyword "begin").first?
      (behind before pos front (d.tail d.result.scanned ++ s.chars)) = none := by
    intro s
    rw [← Option.not_isSome_iff_eq_none]
    exact mt (hasWord_of_first?_keyword (by decide)) (d.not_hasWord_tail List.mem_cons_self s)
  have hsemicolon : Cells.findChar? ';' (d.closeAt q)
      (ofChars (d.tail d.result.scanned ++ listing ds ending)) =
        if d.ended then some (d.closeAt q + 1 + (ofChars d.result.scanned).length)
        else semicolonIn? (d.nextAt q) ds := by
    have hresult : ∀ x ∈ ofChars (')' :: d.result.scanned), x.char ≠ ';' := by
      refine Cells.char_ne_of_not_mem ?_
      rw [List.mem_cons, not_or]
      exact ⟨by decide, d.no_semicolon⟩
    split
    · rename_i hended
      have hsplit : d.tail d.result.scanned ++ listing ds ending =
          (')' :: d.result.scanned) ++ (';' :: (d.trail.chars ++ listing ds ending)) := by
        simp [WrittenSignature.tail, WrittenSignature.mark, hended]
      have hclose : (ofChars (')' :: d.result.scanned)).length =
          1 + (ofChars d.result.scanned).length := by
        rw [Cells.ofChars_cons, List.length_append, Cells.length_ofChar]
        rfl
      rw [hsplit, Cells.ofChars_append, Cells.findChar?_append hresult, hclose, Cells.ofChars_cons,
        Cell.ofChar, List.cons_append, Cells.findChar?, if_pos rfl, Nat.add_assoc]
    · rename_i hended
      have htail : ∀ x ∈ ofChars (d.tail d.result.scanned), x.char ≠ ';' := by
        refine Cells.char_ne_of_not_mem ?_
        have hsplit : d.tail d.result.scanned = (')' :: d.result.scanned) ++ d.trail.chars := by
          simp [WrittenSignature.tail, WrittenSignature.mark, hended]
        rw [hsplit, List.mem_append, List.mem_cons, not_or, not_or]
        exact ⟨⟨by decide, d.no_semicolon⟩, fun h => absurd (d.trail.all_blank _ h) (by decide)⟩
      rw [Cells.ofChars_append, Cells.findChar?_append htail, d.closeAt_add_tail, findChar?_listing]
  generalize hclose : behind before pos front (d.tail d.result.scanned ++ listing ds ending) = close
  have hrest : close.rest = ofChars (d.tail d.result.scanned ++ listing ds ending) := by
    rw [← hclose, behind]
  have hpos : close.pos = d.closeAt q := by
    rw [← hclose, behind, hq]
  have hstop : (close.rest.findChar? ';' close.pos).getD close.pos + 1 = d.stopAt q ds := by
    rw [hrest, hpos, hsemicolon, WrittenSignature.stopAt]
    split <;> rfl
  rw [Text.routineBody]
  obtain ⟨s, ⟨hnone, heq⟩ | ⟨f, hsome, heq⟩⟩ := next_signature d ds ending hclose.symm
  · have hbegin := hbegin s
    rw [← heq] at hbegin
    simp only [hnone, hbegin, hstop]
  · simp only [hsome, heq, hbegin, hstop]

theorem closingParen?_parameters {rest : List Char} {q : Nat}
    (hq : pos + (ofChars front).length + 1 = d.openAt q) :
    closingParen? (behind before pos front ('(' :: (d.parameters.scanned ++ ')' :: rest))) =
      some (d.closeAt q) := by
  have hcells : ofChars ('(' :: (d.parameters.scanned ++ ')' :: rest)) =
      ⟨'(', true⟩ :: (ofChars d.parameters.scanned ++ ⟨')', true⟩ :: ofChars rest) := by
    rw [Cells.ofChars_cons, Cells.ofChars_append, Cells.ofChars_cons]
    rfl
  rw [behind, hcells, closingParen?_append _ _ d.balanced, hq, WrittenSignature.closeAt]

/-- **The routine of a signature** starts with its header and ends where the signature does. -/
theorem exists_routineAt_signature {start q : Nat} (hq : start + (ofChars front).length = q)
    (last : Option Nat) :
    ∃ r, t.routineAt (behind none start [] (front ++ listing (d :: ds) ending)) last (d.found q) =
      .ok r ∧ r.kind = .procedure ∧ r.header = d.headerAt q ∧ r.extent.stop = d.stopAt q ds := by
  have hheader : d.header d.name.blanked = d.word ++ (d.gap.chars ++ (d.name.blanked ++
      d.apart.chars)) ++ ['('] := by simp [WrittenSignature.header]
  have hparen : (ofChars ['(']).length = 1 := rfl
  have hopening : (behind none start [] (front ++ listing (d :: ds) ending)).moveTo
      (d.openAt q - 1) = behind none start (front ++ (d.lead.chars ++ (d.word ++ (d.gap.chars ++
        (d.name.blanked ++ d.apart.chars))))) ('(' :: (d.parameters.scanned ++ ')' ::
          (d.result.scanned ++ (d.mark ++ d.trail.chars) ++ listing ds ending))) := by
    have hsplit : front ++ listing (d :: ds) ending =
        front ++ (d.lead.chars ++ (d.word ++ (d.gap.chars ++ (d.name.blanked ++ d.apart.chars)))) ++
          ('(' :: (d.parameters.scanned ++ ')' :: (d.result.scanned ++ (d.mark ++ d.trail.chars) ++
            listing ds ending))) := by
      rw [listing_cons, WrittenSignature.scanned, hheader]
      simp [WrittenSignature.tail]
    rw [hsplit]
    refine Cursor.moveTo_behind none start _ _ ?_
    rw [WrittenSignature.openAt, WrittenSignature.headerAt, hheader]
    simp only [Cells.ofChars_append, List.length_append, hparen]
    omega
  have hclose : (behind none start [] (front ++ listing (d :: ds) ending)).moveTo (d.closeAt q) =
      behind none start (front ++ (d.lead.chars ++ (d.header d.name.blanked ++
        d.parameters.scanned))) (d.tail d.result.scanned ++ listing ds ending) := by
    have hsplit : front ++ listing (d :: ds) ending =
        front ++ (d.lead.chars ++ (d.header d.name.blanked ++ d.parameters.scanned)) ++
          (d.tail d.result.scanned ++ listing ds ending) := by
      rw [listing_cons, WrittenSignature.scanned]
      simp only [List.append_assoc]
    rw [hsplit]
    refine Cursor.moveTo_behind none start _ _ ?_
    simp only [WrittenSignature.closeAt, WrittenSignature.openAt, WrittenSignature.headerAt, ← hq,
      Cells.ofChars_append, List.length_append, Nat.add_assoc]
  have hparameters := @closingParen?_parameters none start (front ++ (d.lead.chars ++ (d.word ++
    (d.gap.chars ++ (d.name.blanked ++ d.apart.chars))))) d
      (d.result.scanned ++ (d.mark ++ d.trail.chars) ++ listing ds ending) q (by
    rw [WrittenSignature.openAt, WrittenSignature.headerAt, hheader]
    simp only [Cells.ofChars_append, List.length_append, hparen]
    omega)
  have hbody := @routineBody_tail t none start (front ++ (d.lead.chars ++
    (d.header d.name.blanked ++ d.parameters.scanned))) d ds ending q (by
      simp only [WrittenSignature.closeAt, WrittenSignature.openAt, WrittenSignature.headerAt, ← hq,
        Cells.ofChars_append, List.length_append, Nat.add_assoc])
  simp only [Text.routineAt, WrittenSignature.found, hopening, hparameters, hclose, hbody]
  exact ⟨_, rfl, rfl, rfl, rfl⟩

end Signature

/-! ### A listing -/

theorem le_of_semicolonIn? {q k : Nat} {ds : List WrittenSignature} (h : semicolonIn? q ds = some k) :
    q ≤ k := by
  induction ds generalizing q with
  | nil => cases h
  | cons d ds ih =>
    rw [semicolonIn?, Option.or_eq_some_iff] at h
    rcases h with h | ⟨-, h⟩
    · exact (Cells.hasAt_findChar? h).1
    · exact (Nat.le_add_right _ _).trans (ih h)

theorem headerAt_le_of_semicolonIn? {q k : Nat} {d : WrittenSignature} {ds : List WrittenSignature}
    (h : semicolonIn? q (d :: ds) = some k) : d.headerAt q ≤ k := by
  rw [semicolonIn?, Option.or_eq_some_iff] at h
  rcases h with h | ⟨-, h⟩
  · have hlead : ∀ x ∈ ofChars d.lead.chars, x.char ≠ ';' :=
      Cells.char_ne_of_not_mem fun h => absurd (d.lead.all_blank _ h) (by decide)
    rw [WrittenSignature.scanned, Cells.ofChars_append, Cells.findChar?_append hlead] at h
    exact (Cells.hasAt_findChar? h).1
  · have hle := le_of_semicolonIn? h
    have hlt := d.headerAt_lt_closeAt q
    have hnext := d.closeAt_add_tail q
    omega

/-- The place behind which no signature is found before: where signatures are hidden, the end of the
next semicolon, and otherwise no place in the signatures. -/
def Resumes (q : Nat) (ds : List WrittenSignature) (last : Option Nat) : Bool → Prop
  | true => ∃ k, semicolonIn? q ds = some k ∧ last = some (k + 1)
  | false => ∀ e ∈ last, e ≤ q

/-- Behind a hidden signature those are hidden that stand before the semicolon, too. -/
theorem resumes_of_hidden {q : Nat} {d : WrittenSignature} {ds : List WrittenSignature}
    {last : Option Nat} (h : Resumes q (d :: ds) last true) :
    Resumes (d.nextAt q) ds last !d.hasSemicolon := by
  obtain ⟨k, hk, rfl⟩ := h
  have hd := findChar?_scanned_isSome q d
  rw [semicolonIn?] at hk
  cases hscanned : Cells.findChar? ';' q (ofChars d.scanned) with
  | none =>
    rw [hscanned] at hk hd
    rw [← hd]
    exact ⟨k, hk, rfl⟩
  | some k' =>
    rw [hscanned] at hk hd
    rw [← hd]
    obtain rfl := Option.some.inj hk
    rintro e ⟨⟩
    obtain ⟨hle, x, hx, -⟩ := Cells.hasAt_findChar? hscanned
    have hlt := (List.getElem?_eq_some_iff.mp hx).1
    rw [WrittenSignature.nextAt]
    omega

/-- Behind a signature that is found those are hidden that stand before the next semicolon, unless
the signature has its own. -/
theorem resumes_of_found (q : Nat) (d : WrittenSignature) (ds : List WrittenSignature) :
    Resumes (d.nextAt q) ds (some (d.stopAt q ds)) (!d.ended && ds.any (·.hasSemicolon)) := by
  have hnext := d.closeAt_add_tail q
  have htail : 1 + (ofChars d.result.scanned).length + (ofChars d.mark).length ≤
      (ofChars (d.tail d.result.scanned)).length := by
    have hclose : (Cell.ofChar ')').length = 1 := rfl
    rw [WrittenSignature.tail, Cells.ofChars_cons, Cells.ofChars_append, Cells.ofChars_append]
    simp only [List.length_append, hclose]
    omega
  rw [← semicolonIn?_isSome (d.nextAt q), WrittenSignature.stopAt]
  cases hended : d.ended with
  | true =>
    rintro e ⟨⟩
    rw [WrittenSignature.mark, if_pos hended, show (ofChars [';']).length = 1 from rfl] at htail
    simp only [if_pos]
    omega
  | false =>
    cases hlater : semicolonIn? (d.nextAt q) ds with
    | some k => exact ⟨k, hlater, rfl⟩
    | none =>
      rintro e ⟨⟩
      simp only [Bool.false_eq_true, if_false, Option.getD_none]
      omega

/-- **The routines of a listing** are those of its signatures that are not hidden. -/
theorem exists_routinesOf_listing (t : Text) {start q : Nat} (ds : List WrittenSignature)
    (ending : Space) {front : List Char} (hq : start + (ofChars front).length = q)
    {last : Option Nat} {hidden : Bool} (hlast : Resumes q ds last hidden) :
    ∃ rs, t.routinesOf (behind none start [] (front ++ listing ds ending)) last (foundHeaders q ds) =
      .ok rs ∧ rs.map (fun r => (r.kind, (⟨r.header, r.extent.stop⟩ : Extent))) =
        (foundExtents q hidden ds).map fun e => (.procedure, e) := by
  induction ds generalizing q front last hidden with
  | nil => exact ⟨[], rfl, by cases hidden <;> rfl⟩
  | cons d ds ih =>
    have hnext : start + (ofChars (front ++ d.scanned)).length = d.nextAt q := by
      rw [Cells.ofChars_append, List.length_append, WrittenSignature.nextAt, ← hq, Nat.add_assoc]
    have hmembers : front ++ listing (d :: ds) ending = front ++ d.scanned ++ listing ds ending := by
      rw [listing_cons, List.append_assoc]
    rw [foundHeaders, Text.routinesOf]
    cases hidden with
    | true =>
      obtain ⟨k, hk, rfl⟩ := hlast
      have hskip : (some (k + 1)).any ((d.found q).extent.start < ·) = true :=
        decide_eq_true (Nat.lt_succ_of_le (headerAt_le_of_semicolonIn? hk))
      rw [if_pos hskip, hmembers]
      exact ih hnext (resumes_of_hidden ⟨k, hk, rfl⟩)
    | false =>
      have hskip : ¬ last.any ((d.found q).extent.start < ·) = true := by
        rw [Option.any_eq_true]
        rintro ⟨e, he, hlt⟩
        have hle := hlast e he
        have hlt := of_decide_eq_true hlt
        simp only [WrittenSignature.found, WrittenSignature.headerAt] at hlt
        omega
      obtain ⟨r, hr, hkind, hheader, hstop⟩ :=
        @exists_routineAt_signature t front d ds ending start q hq last
      obtain ⟨rs, hrs, hmap⟩ := ih hnext (resumes_of_found q d ds)
      rw [if_neg hskip, hr]
      simp only
      rw [hmembers, hstop, hrs]
      refine ⟨r :: rs, rfl, ?_⟩
      rw [List.map_cons, hmap, foundExtents, List.map_cons, hkind, hheader, hstop]

theorem length_headerOffsets (q : Nat) (ds : List WrittenSignature) :
    (headerOffsets q ds).length = ds.length := by
  induction ds generalizing q with
  | nil => rfl
  | cons d ds ih => rw [headerOffsets, List.length_cons, ih, List.length_cons]

theorem length_foundExtents_le (q : Nat) (hidden : Bool) (ds : List WrittenSignature) :
    (foundExtents q hidden ds).length ≤ ds.length := by
  induction ds generalizing q hidden with
  | nil => cases hidden <;> exact le_rfl
  | cons d ds ih =>
    cases hidden with
    | true => exact (ih _ _).trans (Nat.le_succ _)
    | false => exact Nat.succ_le_succ (ih _ _)

/-- **All signatures are found exactly if each one without a semicolon of its own has none behind
it.** -/
theorem map_start_foundExtents_iff (q : Nat) (ds : List WrittenSignature) :
    (foundExtents q false ds).map (·.start) = headerOffsets q ds ↔
      ds.Pairwise fun d d' => d.ended = true ∨ d'.hasSemicolon = false := by
  induction ds generalizing q with
  | nil => exact iff_of_true rfl .nil
  | cons d ds ih =>
    have hlater : (∀ d' ∈ ds, d.ended = true ∨ d'.hasSemicolon = false) ↔
        (!d.ended && ds.any (·.hasSemicolon)) = false := by
      cases d.ended <;> simp
    rw [List.pairwise_cons, hlater, foundExtents, headerOffsets, List.map_cons, List.cons.injEq]
    cases hhidden : !d.ended && ds.any (·.hasSemicolon) with
    | false => simp [ih]
    | true =>
      refine iff_of_false (fun h => ?_) fun h => absurd h.1 (by simp)
      -- at least the next signature is missing
      cases ds with
      | nil => simp at hhidden
      | cons d' ds =>
        have hlength := congrArg List.length h.2
        have hle := length_foundExtents_le (d'.nextAt (d.nextAt q)) (!d'.hasSemicolon) ds
        rw [List.length_map, length_headerOffsets, foundExtents, List.length_cons] at hlength
        omega

namespace WrittenListing

variable (l : WrittenListing)

/-- The extents of the routines that are found in the listing, from their headers on. -/
def foundExtents : List Extent := Source.foundExtents l.extent.start false l.signatures

/-- Where the headers of the signatures start. -/
def headerOffsets : List Nat := Source.headerOffsets l.extent.start l.signatures

theorem map_routines {rs : List Routine} (h : l.prepared.routines l.extent = .ok rs) :
    rs.map (fun r => (r.kind, (⟨r.header, r.extent.stop⟩ : Extent))) =
      l.foundExtents.map fun e => (.procedure, e) := by
  have hplace : Cursor.ofSlice l.prepared.bare l.extent =
      Cursor.behind none l.extent.start [] (listing l.signatures l.ending) := by
    rw [Cursor.ofSlice, l.slice_bare]
    rfl
  have hall := @all_routineHeader_listing none l.extent.start [] l.signatures l.ending rfl
  obtain ⟨rs', hrs, hmap⟩ := @exists_routinesOf_listing l.prepared l.extent.start l.extent.start
    l.signatures l.ending [] rfl none false (fun _ h => by cases h)
  rw [Text.routines] at h
  simp only [hplace, hall] at h
  obtain rfl := Except.ok.inj (hrs.symm.trans h)
  exact hmap

end WrittenListing

/-- **The methods of an object whose members are a listing.** The nodes below the object are those
of the signatures that are found, in their order and none reaching into the next one. All are found
exactly if each signature without a semicolon of its own has none behind it, neither at the end of a
signature nor between its parentheses. -/
theorem methods_of_listing (l : WrittenListing) {path : String} {tree : Tree}
    (h : resolve path l.source = .ok tree) {i : NodeId} {n : Node} (hn : tree.node? i = some n)
    (hkind : n.kind = .objectDeclaration) :
    (∃ home : Home l.prepared tree.symbols, tree.ObjectOf home i) ∧
      ∀ home : Home l.prepared tree.symbols, tree.ObjectOf home i →
        home.site.members = l.extent →
        (tree.childIds i).map (fun j => (tree.node? j).map fun n => (n.kind, n.span)) =
            l.foundExtents.map (fun e => some (.methodDeclaration, l.prepared.span e)) ∧
          l.foundExtents.Pairwise (·.stop ≤ ·.start) ∧
          (l.foundExtents.map (·.start) = l.headerOffsets ↔
            l.signatures.Pairwise fun d d' => d.ended = true ∨ d'.hasSemicolon = false) := by
  refine ⟨exists_home_of_object h hn hkind, fun home hobject hmembers => ?_⟩
  have ht : l.prepared.Copies (Cells.ofString l.source) :=
    Text.copies_ofCells (Cells.whole_ofString l.source)
  obtain ⟨header, hheader, hsite⟩ := home.site_of_header
  obtain ⟨hsite, -⟩ := placed_objectSite ht (foundFrom_of_mem_headers ht hheader) hsite
  obtain ⟨-, horder⟩ := placed_routines ht hsite.members home.routines_eq
  have hroutines := home.routines_eq
  rw [hmembers] at hroutines
  have hmap := l.map_routines hroutines
  have hextents : l.foundExtents = home.routines.map fun r => ⟨r.header, r.extent.stop⟩ := by
    have := congrArg (List.map Prod.snd) hmap
    simpa [Function.comp_def] using this.symm
  refine ⟨?_, ?_, map_start_foundExtents_iff _ _⟩
  · have hnodes := congrArg (List.map fun p : RoutineKind × Extent =>
      some (p.1.nodeKind, l.prepared.span p.2)) hmap
    rw [hobject.routines]
    simpa [Function.comp_def, RoutineKind.nodeKind] using hnodes
  · rw [hextents, List.pairwise_map]
    exact horder

/-- A signature on a line of its own. -/
def sampleSignature (name : WrittenName) (parameters : Passage ["procedure", "trigger"])
    (result : Passage ("begin" :: routineWords)) (ended : Bool)
    (balanced : ∀ x ∈ ofChars parameters.scanned, Cells.NoBracket x)
    (no_semicolon : ';' ∉ result.scanned) : WrittenSignature where
  lead := ⟨['\n'], by decide⟩
  word := "procedure".toList
  gap := .spaces 1
  name
  apart := .spaces 0
  parameters
  result
  ended
  trail := .spaces 1
  word_lower := by decide
  gap_ne := Space.chars_one_ne_nil
  balanced := Cells.balanced_of_noBracket balanced
  no_semicolon
  trail_ne := fun _ => Space.chars_one_ne_nil

/-- An interface with three methods, of which only the first ends in a semicolon. -/
def sampleListing : WrittenListing where
  before := "interface I\n\x7b".toList
  signatures :=
    [sampleSignature (.plain ['A'] (by decide) (by decide) (by decide))
      (.ofCode "X: Text; Y: Text".toList (by decide) (by decide))
      (.ofCode [] (by decide) (by decide)) true (by unfold Cells.NoBracket; decide) (by decide),
    sampleSignature (.plain ['B'] (by decide) (by decide) (by decide))
      (.ofCode [] (by decide) (by decide)) (.ofCode ": Decimal".toList (by decide) (by decide)) false
      (by unfold Cells.NoBracket; decide) (by decide),
    sampleSignature (.plain ['E'] (by decide) (by decide) (by decide))
      (.ofCode [] (by decide) (by decide)) (.ofCode [] (by decide) (by decide)) false
      (by unfold Cells.NoBracket; decide) (by decide)]
  ending := ⟨['\n'], by decide⟩
  behind := "\x7d".toList
  in_code := by decide

/-- All three methods of the sample are found. -/
theorem methods_sampleListing : ∃ tree, resolve "a.al" sampleListing.source = .ok tree ∧
    (tree.childIds 1).map (fun j => (tree.node? j).map (·.kind)) =
      [some .methodDeclaration, some .methodDeclaration, some .methodDeclaration] ∧
    ∃ home : Home sampleListing.prepared tree.symbols, tree.ObjectOf home 1 ∧
      home.site.members = sampleListing.extent ∧
      sampleListing.foundExtents.map (·.start) = sampleListing.headerOffsets := by
  have h : (resolve "a.al" sampleListing.source).toOption.any (fun tree =>
      (tree.node? 1).any (·.kind = .objectDeclaration) &&
      (tree.childIds 1).map (fun j => (tree.node? j).map (·.kind)) =
        [some .methodDeclaration, some .methodDeclaration, some .methodDeclaration]) = true := by
    decide +kernel
  have hsites : ∀ header ∈ objectHeader.all ⟨none, 0, sampleListing.prepared.bare⟩,
      (objectSite sampleListing.prepared header).toOption.all (·.members = sampleListing.extent) =
        true := by
    rw [← List.all_eq_true]
    decide +kernel
  obtain ⟨tree, htree, h⟩ := exists_ok_of_any h
  obtain ⟨hnode, hmethods⟩ := Bool.and_eq_true_iff.mp h
  obtain ⟨n, hn, hkind⟩ := (Option.any_eq_true _ _).mp hnode
  obtain ⟨⟨home, hobject⟩, hlisting⟩ :=
    methods_of_listing sampleListing htree hn (of_decide_eq_true hkind)
  have hmembers : home.site.members = sampleListing.extent := by
    obtain ⟨header, hheader, hsite⟩ := home.site_of_header
    have hall := hsites header hheader
    rw [hsite] at hall
    exact of_decide_eq_true hall
  obtain ⟨-, -, hstarts⟩ := hlisting home hobject hmembers
  exact ⟨tree, htree, of_decide_eq_true hmethods, home, hobject, hmembers,
    hstarts.mpr (by decide)⟩

/-- Of three methods of which only the last ends in a semicolon, the first reaches to that semicolon,
and no other one is found. -/
theorem methods_hidden_by_semicolon : ∃ tree,
    resolve "a.al" ("interface IShape\n\x7b\n    procedure Area()\n" ++
      "    procedure Name()\n    procedure Draw();\n\x7d\n") = .ok tree ∧
    tree.nodes.map (fun n => (n.kind, n.span.startByte, n.span.endByte)) =
      [(.compilationUnit, 0, 85), (.objectDeclaration, 0, 84), (.methodDeclaration, 23, 82)] := by
  have h : (resolve "a.al" ("interface IShape\n\x7b\n    procedure Area()\n" ++
      "    procedure Name()\n    procedure Draw();\n\x7d\n")).toOption.any (fun tree =>
      tree.nodes.map (fun n => (n.kind, n.span.startByte, n.span.endByte)) =
        [(.compilationUnit, 0, 85), (.objectDeclaration, 0, 84), (.methodDeclaration, 23, 82)]) =
      true := by
    decide +kernel
  obtain ⟨tree, htree, h⟩ := exists_ok_of_any h
  exact ⟨tree, htree, of_decide_eq_true h⟩

end Source
end TreeLint
