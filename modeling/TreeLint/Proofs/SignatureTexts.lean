/-
# Routines without a body, as they are written

A signature is `procedure`, a name, parameters between parentheses, perhaps a type
of the result, and perhaps a semicolon. A listing is signatures one after the other,
somewhere in a source where the scanner reads code. What is between the parentheses
and what is behind them may be any text that reads on as code, comments and literals
included, as long as the words that start or open a routine do not stand in it.

The search for headers finds one for each signature, from `procedure` through the
parenthesis (`Source.all_routineHeader_listing`).

Key definitions: `Source.Passage`, `Source.WrittenSignature`,
`Source.WrittenListing`.
Key theorems: `Source.WrittenListing.slice_bare`,
`Source.WrittenSignature.routineHeader_header`, `Source.all_routineHeader_listing`.
-/
import TreeLint.Proofs.HeaderSearch

namespace TreeLint

namespace CharClass

/-- A word without `s` and `k` is folded to in ASCII only. -/
theorem Folds.map_lower {word cs : List Char} (h : Folds word cs)
    (hword : 's' ∉ word ∧ 'k' ∉ word) : cs.map lower = word := by
  induction h with
  | nil => rfl
  | @cons k c word cs hfolds _ ih =>
    rw [List.mem_cons, not_or, List.mem_cons, not_or] at hword
    obtain ⟨⟨hs, hsword⟩, hk, hkword⟩ := hword
    have hlower : lower c = k := by simpa [folds, Ne.symm hs, Ne.symm hk] using hfolds
    rw [List.map_cons, hlower, ih ⟨hsword, hkword⟩]

end CharClass

namespace Source

open Cells (ofChars lastOr)
open CharClass (Folds HasWord isBlank isWord lower)
open Cursor (behind)

/-! ### What is written -/

/-- Read from where code is read, the text becomes the second one in the copy that blanks comments,
literals and quoted names, and behind it the scanner reads code again. -/
def ScansAs (cs bs : List Char) : Prop :=
  ∀ rest, coveredFrom (· != .code) .code (ofChars cs ++ rest) =
    ofChars bs ++ coveredFrom (· != .code) .code rest

namespace ScansAs

variable {cs cs' bs bs' : List Char}

theorem append (h : ScansAs cs bs) (h' : ScansAs cs' bs') : ScansAs (cs ++ cs') (bs ++ bs') := by
  intro rest
  rw [Cells.ofChars_append, List.append_assoc, h, h', Cells.ofChars_append, List.append_assoc]

theorem length_eq (h : ScansAs cs bs) : (ofChars bs).length = (ofChars cs).length := by
  have hbare := congrArg List.length (h [])
  rw [length_coveredFrom, List.append_nil, List.length_append, length_coveredFrom] at hbare
  exact hbare.symm

end ScansAs

/-- A piece of text as it is written and as it is scanned, in which some words do not stand. -/
structure Passage (words : List String) where
  chars : List Char
  scanned : List Char
  scans : ScansAs chars scanned
  free : ∀ w ∈ words, ¬ HasWord w.toList scanned

/-- Code without comments, literals and quotes, in which none of the words is found. -/
def Passage.ofCode {words : List String} (cs : List Char) (code : ∀ c ∈ cs, c ∉ ['/', '\'', '"'])
    (free : ∀ w ∈ words, Lettered w.toList ∧
      ((keyword w).first? ⟨none, 0, ofChars cs⟩).isSome = false) : Passage words where
  chars := cs
  scanned := cs
  scans := (ReadsAs.code code).bare
  free := fun w hw h => by
    rw [← @first?_keyword_isSome_iff none 0 cs w (free w hw).1 rfl, (free w hw).2] at h
    cases h

/-- A routine without a body, as it is written: white space, `procedure` in any ASCII case, a name,
parameters between parentheses, what stands behind them, perhaps a semicolon, and white space. -/
structure WrittenSignature where
  lead : Space
  word : List Char
  gap : Space
  name : WrittenName
  apart : Space
  parameters : Passage ["procedure", "trigger"]
  result : Passage ("begin" :: routineWords)
  ended : Bool
  trail : Space
  word_lower : word.map lower = "procedure".toList
  gap_ne : gap.chars ≠ []
  balanced : Cells.Balanced (ofChars parameters.scanned)
  no_semicolon : ';' ∉ result.scanned
  trail_ne : ended = false → trail.chars ≠ []

namespace WrittenSignature

variable (d : WrittenSignature)

/-- The semicolon at the end, if there is one. -/
def mark : List Char := if d.ended then [';'] else []

/-- From `procedure` through the parenthesis that opens the parameters, with the name as given. -/
def header (name : List Char) : List Char :=
  d.word ++ (d.gap.chars ++ (name ++ (d.apart.chars ++ ['('])))

/-- From the parenthesis that closes the parameters on, with the result as given. -/
def tail (result : List Char) : List Char := ')' :: (result ++ (d.mark ++ d.trail.chars))

/-- The signature as it is written. -/
def chars : List Char :=
  d.lead.chars ++ (d.header d.name.chars ++ (d.parameters.chars ++ d.tail d.result.chars))

/-- The signature as it is scanned. -/
def scanned : List Char :=
  d.lead.chars ++ (d.header d.name.blanked ++ (d.parameters.scanned ++ d.tail d.result.scanned))

/-- Whether a semicolon stands in the signature: at its end or between its parentheses. -/
def hasSemicolon : Bool := d.ended || d.parameters.scanned.contains ';'

end WrittenSignature

/-- Signatures as they are scanned, one after the other, and white space behind them. -/
def listing (ds : List WrittenSignature) (ending : Space) : List Char :=
  ds.flatMap WrittenSignature.scanned ++ ending.chars

theorem listing_cons (d : WrittenSignature) (ds : List WrittenSignature) (ending : Space) :
    listing (d :: ds) ending = d.scanned ++ listing ds ending := by
  rw [listing, List.flatMap_cons, List.append_assoc, listing]

/-- A source with a listing in it, which stands where the scanner reads code. -/
structure WrittenListing where
  before : List Char
  signatures : List WrittenSignature
  ending : Space
  behind : List Char
  in_code : standsBehind
    (signatures.flatMap WrittenSignature.chars ++ ending.chars ++ behind).head? .code
      (ofChars before) = .code

namespace WrittenListing

variable (l : WrittenListing)

/-- The listing as it is written. -/
def chars : List Char := l.signatures.flatMap WrittenSignature.chars ++ l.ending.chars

/-- The source. -/
def source : String := String.ofList (l.before ++ (l.chars ++ l.behind))

/-- The source, prepared for reading. -/
def prepared : Text := Text.ofCells (Cells.ofString l.source)

/-- Where the listing stands. -/
def extent : Extent :=
  ⟨(ofChars l.before).length, (ofChars l.before).length + (ofChars l.chars).length⟩

end WrittenListing

/-! ### What is scanned -/

namespace ScansAs

theorem signature (d : WrittenSignature) : ScansAs d.chars d.scanned := by
  have hword : ReadsAs d.word d.word := by
    refine .of_class (q := fun c => "procedure".toList.contains (lower c)) (by decide) fun c hc => ?_
    rw [← d.word_lower]
    exact List.contains_iff_mem.mpr (List.mem_map_of_mem hc)
  have hmark : ReadsAs d.mark d.mark := by
    rw [WrittenSignature.mark]
    split
    · exact .mark (by decide)
    · exact .code nofun
  have hclose : ReadsAs [')'] [')'] := .mark (by decide)
  have hheader : ScansAs (d.header d.name.chars) (d.header d.name.blanked) :=
    (hword.append ((ReadsAs.space d.gap).append
      ((ReadsAs.name d.name).append ((ReadsAs.space d.apart).append (.mark (by decide)))))).bare
  exact append (ReadsAs.space d.lead).bare (append hheader (append d.parameters.scans
    (append hclose.bare (append d.result.scans (hmark.append (.space d.trail)).bare))))

theorem listing (ds : List WrittenSignature) (ending : Space) :
    ScansAs (ds.flatMap WrittenSignature.chars ++ ending.chars) (listing ds ending) := by
  refine append ?_ (ReadsAs.space ending).bare
  induction ds with
  | nil => exact (@ReadsAs.code [] nofun).bare
  | cons d ds ih => exact append (signature d) ih

end ScansAs

/-- **The listing stands scanned in its source.** -/
theorem WrittenListing.slice_bare (l : WrittenListing) :
    l.prepared.bare.slice l.extent = ofChars (listing l.signatures l.ending) :=
  have hscans := ScansAs.listing l.signatures l.ending
  slice_coveredFrom l.in_code hscans.length_eq hscans

/-! ### Headers -/

variable {before : Option Cell} {pos : Nat} {front rest : List Char}

namespace WrittenName

theorem quote_not_mem_blanked {content : List Char} (h : ∀ c ∈ content, c ≠ '"' ∧ c ≠ '\n') :
    '"' ∉ content.flatMap blankedChar := by
  rw [List.mem_flatMap]
  rintro ⟨c, hc, hmem⟩
  rw [blankedChar] at hmem
  split at hmem
  · exact (h c hc).1 (List.mem_singleton.mp hmem).symm
  · exact absurd (List.eq_of_mem_replicate hmem) (by decide)

theorem not_isBlank_head?_blanked (n : WrittenName) (rest : List Char) :
    (n.blanked ++ rest).head?.any isBlank = false := by
  cases n with
  | quoted content _ => rfl
  | plain name first all_word _ =>
    cases name with
    | nil => cases first
    | cons c name => exact CharClass.isBlank_of_isWord (all_word c List.mem_cons_self)

theorem name?_blanked (n : WrittenName) (hrest : rest.head?.any isWord = false) :
    (behind before pos front (n.blanked ++ rest)).name? CharClass.isFoldedLetter =
      some ((behind before pos front (n.blanked ++ rest)).upTo
          (behind before pos (front ++ n.blanked) rest),
        behind before pos (front ++ n.blanked) rest) := by
  cases n with
  | quoted content enclosed => exact Cursor.name?_quoted (quote_not_mem_blanked enclosed)
  | plain name first all_word _ => exact Cursor.name?_plain (first_isFoldedLetter first) all_word hrest

end WrittenName

namespace WrittenSignature

variable (d : WrittenSignature)

/-- Where the header starts in a signature at `q`. -/
def headerAt (q : Nat) : Nat := q + (ofChars d.lead.chars).length

/-- Where the name starts in a signature at `q`. -/
def nameAt (q : Nat) : Nat := d.headerAt q + (ofChars (d.word ++ d.gap.chars)).length

/-- Where the parameters start in a signature at `q`. -/
def openAt (q : Nat) : Nat := d.headerAt q + (ofChars (d.header d.name.blanked)).length

/-- The header that is found in a signature at `q`. -/
def found (q : Nat) : Found RoutineHeader :=
  ⟨⟨d.headerAt q, d.openAt q⟩,
    ⟨.procedure, ⟨d.nameAt q, d.nameAt q + (ofChars d.name.blanked).length⟩⟩⟩

theorem folds_word : Folds "procedure".toList d.word := CharClass.folds_of_map_lower d.word_lower

theorem skipAccess_header (rest : List Char) :
    skipAccess (behind before pos front (d.header d.name.blanked ++ rest)) =
      behind before pos front (d.header d.name.blanked ++ rest) := by
  obtain ⟨access, back, heq, haccess, hskip⟩ :=
    exists_skipAccess before pos front (d.header d.name.blanked ++ rest)
  rcases haccess with rfl | ⟨w, hw, mid, gap, rfl, hfolds, hne, hgap⟩
  · rw [hskip, List.append_nil, heq, List.nil_append]
  · exfalso
    simp only [header, List.append_assoc] at heq
    obtain ⟨x, hword, hx⟩ := exists_append_of_run heq (hfolds.isWord_of_mem (lettered_accessWords hw))
      (Or.inr (d.gap.not_isWord_head?_append d.gap_ne _))
    -- the access keyword ends where `procedure` does
    obtain rfl : x = [] := by
      cases x with
      | nil => rfl
      | cons c x =>
        have hc : isWord c = true := d.folds_word.isWord_of_mem (by decide) c (by rw [hword]; simp)
        obtain ⟨c', gap, rfl⟩ := List.exists_cons_of_ne_nil hne
        obtain ⟨rfl, -⟩ := List.cons.inj hx
        rw [CharClass.not_isWord_of_isBlank (hgap c' List.mem_cons_self)] at hc
        cases hc
    have hlower := d.word_lower
    rw [hword, List.append_nil, hfolds.map_lower ((by decide : ∀ w ∈ accessWords,
      's' ∉ w.toList ∧ 'k' ∉ w.toList) w hw)] at hlower
    exact absurd hlower ((by decide : ∀ w ∈ accessWords, w.toList ≠ "procedure".toList) w hw)

/-- **The header of a signature is found with its name.** -/
theorem routineHeader_header (hfront : (lastOr before (ofChars front)).any Cell.isWord = false)
    (rest : List Char) :
    routineHeader (behind before pos front (d.header d.name.blanked ++ rest)) =
      some (⟨.procedure, (behind before pos (front ++ d.word ++ d.gap.chars) []).upTo
          (behind before pos (front ++ d.word ++ d.gap.chars ++ d.name.blanked) [])⟩,
        behind before pos (front ++ d.header d.name.blanked) rest) := by
  have hsplit : d.header d.name.blanked ++ rest =
      d.word ++ (d.gap.chars ++ (d.name.blanked ++ (d.apart.chars ++ '(' :: rest))) := by
    simp [header]
  have hedge : (behind before pos front (d.header d.name.blanked ++ rest)).atWordEdge = true := by
    obtain ⟨c, word, hword⟩ := List.exists_cons_of_ne_nil (d.folds_word.ne_nil (by decide))
    have hc : isWord c = true :=
      d.folds_word.isWord_of_mem (by decide) c (by rw [hword]; exact List.mem_cons_self)
    have hhead : (behind before pos front (d.header d.name.blanked ++ rest)).rest.head?.any
        Cell.isWord = true := (Cells.head?_ofChars_any isWord _).trans (by rw [hsplit, hword]; exact hc)
    rw [Cursor.atWordEdge, hhead, behind, hfront]
    rfl
  have hprocedure : (behind before pos front (d.header d.name.blanked ++ rest)).word?
      "procedure".toList = some (behind before pos (front ++ d.word)
        (d.gap.chars ++ (d.name.blanked ++ (d.apart.chars ++ '(' :: rest)))) :=
    Cursor.word?_behind_iff.mpr ⟨_, _, hsplit, d.folds_word, rfl⟩
  have hgap : (behind before pos (front ++ d.word)
      (d.gap.chars ++ (d.name.blanked ++ (d.apart.chars ++ '(' :: rest)))).blanks? =
        some (behind before pos (front ++ d.word ++ d.gap.chars)
          (d.name.blanked ++ (d.apart.chars ++ '(' :: rest))) :=
    (Cursor.some?_behind_iff (q := isBlank)).mpr ⟨_, _, rfl, d.gap_ne, d.gap.all_blank,
      d.name.not_isBlank_head?_blanked _, rfl⟩
  have hapart : (d.apart.chars ++ '(' :: rest).head?.any isWord = false := by
    cases hchars : d.apart.chars with
    | nil => rfl
    | cons c gap =>
      exact CharClass.not_isWord_of_isBlank (d.apart.all_blank c (hchars ▸ List.mem_cons_self))
  have hblanks : (behind before pos (front ++ d.word ++ d.gap.chars ++ d.name.blanked)
      (d.apart.chars ++ '(' :: rest)).blanks =
        behind before pos (front ++ d.word ++ d.gap.chars ++ d.name.blanked ++ d.apart.chars)
          ('(' :: rest) :=
    Cursor.skipWhile_behind (q := isBlank) d.apart.all_blank rfl
  rw [routineHeader, if_pos hedge]
  simp only [d.skipAccess_header, hprocedure, hgap, d.name.name?_blanked hapart, hblanks,
    Cursor.mark?_behind (x := '(') rfl, Option.bind_eq_bind, Option.bind_some]
  simp [header, Cursor.upTo, behind]

theorem not_isWord_getLast?_tail (result : List Char) :
    (d.tail result).getLast?.any isWord = false := by
  have hend : (d.mark ++ d.trail.chars).getLast?.any isWord = false ∧
      d.mark ++ d.trail.chars ≠ [] := by
    rcases List.eq_nil_or_concat' d.trail.chars with hnil | ⟨gap, c, hgap⟩
    · have hended : d.ended = true := by
        rw [← Bool.not_eq_false]
        exact fun h => d.trail_ne h hnil
      rw [hnil, mark, if_pos hended]
      decide
    · rw [hgap, ← List.append_assoc, List.getLast?_concat]
      refine ⟨CharClass.not_isWord_of_isBlank (d.trail.all_blank c (by rw [hgap]; simp)), ?_⟩
      exact List.append_ne_nil_of_right_ne_nil _ (List.cons_ne_nil c [])
  rw [tail, List.getLast?_cons, List.getLast?_append_of_ne_nil _ hend.2]
  obtain ⟨c, hc⟩ := Option.isSome_iff_exists.mp (List.getLast?_isSome.mpr hend.2)
  rw [hc] at hend ⊢
  exact hend.1

/-- Behind the parameters, up to the next signature, no word of a header stands, nor `begin`. -/
theorem not_hasWord_tail {w : String} (hw : w ∈ "begin" :: routineWords) (s : Space) :
    ¬ HasWord w.toList (d.tail d.result.scanned ++ s.chars) := by
  have hletters : Lettered w.toList :=
    (by decide : ∀ w ∈ "begin" :: routineWords, Lettered w.toList) w hw
  have hmarks : ∀ c ∈ d.mark ++ d.trail.chars ++ s.chars, isWord c = false := by
    intro c hc
    rcases List.mem_append.mp hc with hc | hc
    · rcases List.mem_append.mp hc with hc | hc
      · rw [mark] at hc
        split at hc
        · rw [List.mem_singleton.mp hc]
          decide
        · cases hc
      · exact CharClass.not_isWord_of_isBlank (d.trail.all_blank c hc)
    · exact CharClass.not_isWord_of_isBlank (s.all_blank c hc)
  have hhead : (d.mark ++ d.trail.chars ++ s.chars).head?.any isWord = false := by
    cases hchars : d.mark ++ d.trail.chars ++ s.chars with
    | nil => rfl
    | cons c cs => exact hmarks c (hchars ▸ List.mem_cons_self)
  have hsplit : d.tail d.result.scanned ++ s.chars =
      [')'] ++ (d.result.scanned ++ (d.mark ++ d.trail.chars ++ s.chars)) := by simp [tail]
  rw [hsplit, CharClass.hasWord_append_iff hletters (Or.inl (by decide)),
    CharClass.hasWord_append_iff hletters (Or.inr hhead)]
  rintro (h | h | h)
  · exact CharClass.not_hasWord_of_forall hletters (by decide) h
  · exact d.result.free w hw h
  · exact CharClass.not_hasWord_of_forall hletters hmarks h

/-- Where the next signature starts, if one does, behind a signature at `q`. -/
def nextAt (q : Nat) : Nat := q + (ofChars d.scanned).length

theorem not_isWord_lastOr (hbefore : before.any Cell.isWord = false) :
    (lastOr before (ofChars d.scanned)).any Cell.isWord = false := by
  refine (Cells.any_lastOr_ofChars hbefore _).trans ?_
  rw [scanned, List.getLast?_append_of_ne_nil _ (by simp [tail]),
    List.getLast?_append_of_ne_nil _ (by simp [tail]),
    List.getLast?_append_of_ne_nil _ (by simp [tail])]
  exact d.not_isWord_getLast?_tail _

end WrittenSignature

theorem not_hasWord_space (s : Space) {w : String} (hw : w ∈ routineWords) :
    ¬ HasWord w.toList s.chars :=
  CharClass.not_hasWord_of_forall (lettered_routineWords w hw) fun c hc =>
    CharClass.not_isWord_of_isBlank (s.all_blank c hc)

/-- Behind its parameters, no header is found in a signature. -/
theorem all_routineHeader_tail (d : WrittenSignature) (rest : List Char) :
    routineHeader.all (behind before pos front (d.tail d.result.scanned ++ rest)) =
      routineHeader.all (behind before pos (front ++ d.tail d.result.scanned) rest) := by
  have hword : ∀ w ∈ routineWords, ¬ HasWord w.toList (d.tail d.result.scanned) := fun w hw => by
    have := d.not_hasWord_tail (List.mem_cons_of_mem _ hw) ⟨[], List.forall_mem_nil _⟩
    rwa [List.append_nil] at this
  refine all_routineHeader_append (fun w hw => hword w ?_) (Or.inl (d.not_isWord_getLast?_tail _))
    (Or.inl fun w hw => hword w (List.mem_append_left ["procedure", "trigger"] hw))
  rcases List.mem_pair.mp hw with rfl | rfl <;> decide

/-- The headers that are found in signatures of which the first is at `q`. -/
def foundHeaders : Nat → List WrittenSignature → List (Found RoutineHeader)
  | _, [] => []
  | q, d :: ds => d.found q :: foundHeaders (d.nextAt q) ds

/-- **The search for headers finds one for each signature.** -/
theorem all_routineHeader_listing (ds : List WrittenSignature) (ending : Space)
    (hfront : (lastOr before (ofChars front)).any Cell.isWord = false) :
    routineHeader.all (behind before pos front (listing ds ending)) =
      foundHeaders (pos + (ofChars front).length) ds := by
  have hspace : ∀ (s : Space) (front rest : List Char),
      routineHeader.all (behind before pos front (s.chars ++ rest)) =
        routineHeader.all (behind before pos (front ++ s.chars) rest) := by
    intro s front rest
    refine all_routineHeader_append (fun w hw => not_hasWord_space s ?_)
      (Or.inl s.not_isWord_getLast?) (Or.inl fun w hw => not_hasWord_space s ?_)
    · rcases List.mem_pair.mp hw with rfl | rfl <;> decide
    · exact List.mem_append_left ["procedure", "trigger"] hw
  induction ds generalizing front with
  | nil =>
    have hending := hspace ending front []
    rw [List.append_nil] at hending
    exact hending
  | cons d ds ih =>
    have hlead : (lastOr before (ofChars (front ++ d.lead.chars))).any Cell.isWord = false := by
      rw [Cells.ofChars_append, Cells.lastOr_append]
      exact (Cells.any_lastOr_ofChars hfront _).trans d.lead.not_isWord_getLast?
    have hnext : (lastOr before (ofChars (front ++ d.scanned))).any Cell.isWord = false := by
      rw [Cells.ofChars_append, Cells.lastOr_append]
      exact d.not_isWord_lastOr hfront
    have hparameters := fun front => @all_routineHeader_append before pos front d.parameters.scanned
      (d.tail d.result.scanned ++ listing ds ending) d.parameters.free (Or.inr rfl) (Or.inr rfl)
    have hsplit : listing (d :: ds) ending = d.lead.chars ++ (d.header d.name.blanked ++
        (d.parameters.scanned ++ (d.tail d.result.scanned ++ listing ds ending))) := by
      rw [listing_cons, WrittenSignature.scanned]
      simp only [List.append_assoc]
    have hjoin : front ++ d.lead.chars ++ d.header d.name.blanked ++ d.parameters.scanned ++
        d.tail d.result.scanned = front ++ d.scanned := by
      rw [WrittenSignature.scanned]
      simp only [List.append_assoc]
    rw [hsplit, hspace, Pattern.all_behind_match (d.routineHeader_header hlead _)
      (by simp [WrittenSignature.header]), hparameters, all_routineHeader_tail, hjoin, ih hnext, foundHeaders]
    simp only [WrittenSignature.found, WrittenSignature.headerAt, WrittenSignature.openAt,
      WrittenSignature.nameAt, WrittenSignature.nextAt, Cursor.upTo, behind, Cells.ofChars_append,
      List.length_append, Nat.add_assoc]

end Source
end TreeLint
