/-
# The last directive wins

At an offset an id is under the last directive that is about it and stands no
later. What the other directives say has no part in it: the answer is a function
of the directives that are about the id and stand no later
(`Pragma.decides_congr`), however the regions of different ids overlap.

So lines may be put into a source. If none of their directives is about the id,
or if they stand behind the offset, the answer is the same directive as before,
at the place where the insertion moved it (`Pragma.last_directive_wins`).
Reading from right to left, that is what happens when lines are taken out.

Key definitions: `Pragma.pushed`, `Pragma.shift`, `Pragma.makeRoom`.
Key theorems: `Pragma.mem_parse_append_iff`, `Pragma.active?_insert`,
`Pragma.last_directive_wins`.
-/
import TreeLint.Proofs.DirectiveLines

namespace TreeLint

open Cells (ofChars)

namespace Pragma

theorem appliesTo_iff {p : Pragma} {id : String} :
    p.appliesTo id = true ↔ p.ids = [] ∨ ∃ i ∈ p.ids, Name.lower i = Name.lower id := by
  simp [appliesTo, Name.eqIgnoreCase, Name.lower, ← String.toList_inj]

/-! ### Directives that have no part in the answer -/

section Congr

variable {ps qs : List Pragma} {id : String} {offset : Nat}

theorem Decides.of_same {p : Pragma}
    (h : ∀ q : Pragma, q.appliesTo id = true → q.offset ≤ offset → (q ∈ ps ↔ q ∈ qs))
    (hp : Decides ps id offset p) : Decides qs id offset p := by
  obtain ⟨hmem, happlies, hle, hlast⟩ := hp
  exact ⟨(h p happlies hle).mp hmem, happlies, hle,
    fun q hq hqapplies hqle => hlast q ((h q hqapplies hqle).mpr hq) hqapplies hqle⟩

theorem decides_congr
    (h : ∀ q : Pragma, q.appliesTo id = true → q.offset ≤ offset → (q ∈ ps ↔ q ∈ qs)) (p : Pragma) :
    Decides ps id offset p ↔ Decides qs id offset p :=
  ⟨.of_same h, .of_same fun q happlies hle => (h q happlies hle).symm⟩

variable (hps : ps.Pairwise fun p q => p.offset < q.offset)
include hps

theorem active?_congr (hqs : qs.Pairwise fun p q => p.offset < q.offset)
    (h : ∀ q : Pragma, q.appliesTo id = true → q.offset ≤ offset → (q ∈ ps ↔ q ∈ qs)) :
    active? ps id offset = active? qs id offset := by
  ext p
  rw [active?_eq_some_iff hps, active?_eq_some_iff hqs, decides_congr h]

/-- Of the directives about an id that do not stand behind an offset, one decides. -/
theorem exists_decides {q : Pragma} (hq : q ∈ ps) (happlies : q.appliesTo id = true)
    (hle : q.offset ≤ offset) : ∃ p, Decides ps id offset p := by
  have hne : ps.filter (fun p => p.appliesTo id && decide (p.offset ≤ offset)) ≠ [] :=
    List.ne_nil_of_mem (List.mem_filter.mpr ⟨hq, by simp [happlies, hle]⟩)
  obtain ⟨p, hp⟩ := Option.ne_none_iff_exists'.mp (mt List.getLast?_eq_none_iff.mp hne)
  rw [getLast?_eq_some_iff_greatest (hps.sublist List.filter_sublist)] at hp
  simp only [List.mem_filter, Bool.and_eq_true, decide_eq_true_eq] at hp
  obtain ⟨⟨hmem, hpapplies, hple⟩, hgreatest⟩ := hp
  exact ⟨p, hmem, hpapplies, hple, fun r hr hra hrl => hgreatest r ⟨hr, hra, hrl⟩⟩

/-- Nothing is disabled where no directive is about the id yet, and where the last one restores. -/
theorem active?_eq_none_iff :
    active? ps id offset = none ↔
      (∀ q ∈ ps, q.appliesTo id = true → offset < q.offset) ∨
        ∃ p, p.action = .restore ∧ Decides ps id offset p := by
  rw [Option.eq_none_iff_forall_ne_some]
  constructor
  · intro hnone
    by_cases hfirst : ∀ q ∈ ps, q.appliesTo id = true → offset < q.offset
    · exact Or.inl hfirst
    · push Not at hfirst
      obtain ⟨q, hq, happlies, hle⟩ := hfirst
      obtain ⟨p, hp⟩ := exists_decides hps hq happlies hle
      refine Or.inr ⟨p, ?_, hp⟩
      cases haction : p.action with
      | disable => exact absurd ((active?_eq_some_iff hps).mpr ⟨haction, hp⟩) (hnone p)
      | restore => rfl
  · rintro (hfirst | ⟨r, hrestore, hr⟩) p hp
    · obtain ⟨-, hmem, happlies, hle, -⟩ := (active?_eq_some_iff hps).mp hp
      exact absurd hle (Nat.not_le.mpr (hfirst p hmem happlies))
    · obtain ⟨hdisable, hp⟩ := (active?_eq_some_iff hps).mp hp
      -- both stand last, and no two directives stand at one place
      have hinj : ∀ a ∈ ps, ∀ b ∈ ps, a.offset = b.offset → a = b :=
        List.inj_on_of_nodup_map ((List.pairwise_map.mpr hps).imp Nat.ne_of_lt)
      have hsame := hinj r hr.1 p hp.1
        (Nat.le_antisymm (hp.2.2.2 r hr.1 hr.2.1 hr.2.2.1) (hr.2.2.2 p hp.1 hp.2.1 hp.2.2.1))
      rw [← hsame, hrestore] at hdisable
      cases hdisable

end Congr

/-! ### Lines above and lines below -/

/-- The directive as it stands behind `lines` more lines of `bytes` bytes. -/
def shift (lines bytes : Nat) (p : Pragma) : Pragma :=
  { p with line := p.line + lines, offset := p.offset + bytes }

theorem lineAt_append_iff {above before line : List Char} (habove : WholeLines above)
    (below : List Char) :
    LineAt (above ++ below) before line ↔
      LineAt above before line ∧ before.length < above.length ∨
        ∃ before', before = above ++ before' ∧ LineAt below before' line := by
  by_cases hfeed : '\n' ∈ above
  · obtain ⟨first, later, rfl, hfirst⟩ := List.eq_append_cons_of_mem hfeed
    have ih : ∀ before', LineAt (later ++ below) before' line ↔ _ := fun before' =>
      lineAt_append_iff habove.of_append below
    rw [List.append_assoc, List.cons_append, lineAt_append_feed_iff hfirst,
      lineAt_append_feed_iff hfirst]
    simp only [ih]
    constructor
    · rintro (⟨rfl, rfl⟩ | ⟨before', rfl, ⟨hline, hlt⟩ | ⟨before'', rfl, hline⟩⟩)
      · exact Or.inl ⟨Or.inl ⟨rfl, rfl⟩, List.length_pos_of_mem hfeed⟩
      · exact Or.inl ⟨Or.inr ⟨before', rfl, hline⟩, by simpa using hlt⟩
      · exact Or.inr ⟨before'', by simp, hline⟩
    · rintro (⟨⟨rfl, rfl⟩ | ⟨before', rfl, hline⟩, hlt⟩ | ⟨before', rfl, hline⟩)
      · exact Or.inl ⟨rfl, rfl⟩
      · exact Or.inr ⟨before', rfl, Or.inl ⟨hline, by simpa using hlt⟩⟩
      · exact Or.inr ⟨later ++ before', by simp, Or.inr ⟨before', rfl, hline⟩⟩
  · obtain rfl : above = [] := by
      rcases habove with hnil | ⟨init, rfl⟩
      · exact hnil
      · exact absurd (by simp) hfeed
    simp
termination_by above.length

theorem DirectiveLine.chars_ne_nil (d : DirectiveLine) : d.chars ≠ [] := by
  simp [DirectiveLine.chars, DirectiveLine.front]

theorem LineAt.length_lt {text before line : List Char} (h : LineAt text before line)
    (hne : line ≠ []) : before.length < text.length := by
  obtain ⟨after, rfl, -⟩ := h.stands
  have := List.length_pos_of_ne_nil hne
  simp only [List.length_append]
  omega

theorem offset_lt_of_mem_parse {source : String} {p : Pragma} (hp : p ∈ parse source) :
    p.offset < source.utf8ByteSize := by
  obtain ⟨before, d, hline, rfl⟩ := mem_parse_iff.mp hp
  obtain ⟨after, hsource, -⟩ := hline.stands
  obtain ⟨c, cs, hchars⟩ := List.exists_cons_of_ne_nil d.chars_ne_nil
  have hsize := Cells.length_ofString source
  rw [Cells.ofString, hsource, hchars, List.cons_append, Cells.ofChars_append, Cells.ofChars_cons,
    List.length_append, List.length_append, Cells.length_ofChar, Cells.length_ofChars] at hsize
  have := c.utf8Size_pos
  simp only
  omega

/-- **The directives of a source are those of its upper lines and those of its lower lines**, the
latter further down. -/
theorem mem_parse_append_iff {above below : String} (habove : WholeLines above.toList)
    {p : Pragma} :
    p ∈ parse (above ++ below) ↔ p ∈ parse above ∨
      ∃ q ∈ parse below, p = q.shift (above.toList.count '\n') above.utf8ByteSize := by
  simp only [mem_parse_iff, String.toList_append, lineAt_append_iff habove]
  constructor
  · rintro ⟨before, d, ⟨hline, -⟩ | ⟨before', rfl, hline⟩, rfl⟩
    · exact Or.inl ⟨before, d, hline, rfl⟩
    · refine Or.inr ⟨_, ⟨before', d, hline, rfl⟩, ?_⟩
      simp [shift]
      omega
  · rintro (⟨before, d, hline, rfl⟩ | ⟨_, ⟨before', d, hline, rfl⟩, rfl⟩)
    · exact ⟨before, d, Or.inl ⟨hline, hline.length_lt d.chars_ne_nil⟩, rfl⟩
    · refine ⟨_, d, Or.inr ⟨before', rfl, hline⟩, ?_⟩
      simp [shift]
      omega

/-! ### Putting in lines -/

/-- Where a place of the text is after `bytes` bytes are put in at `start`. -/
def pushed (start bytes offset : Nat) : Nat := if offset < start then offset else offset + bytes

/-- The directive after `lines` lines of `bytes` bytes are put in at `start`. -/
def makeRoom (start lines bytes : Nat) (p : Pragma) : Pragma :=
  if p.offset < start then p else p.shift lines bytes

theorem appliesTo_makeRoom (start lines bytes : Nat) (p : Pragma) (id : String) :
    (p.makeRoom start lines bytes).appliesTo id = p.appliesTo id := by
  unfold makeRoom
  split <;> rfl

theorem action_makeRoom (start lines bytes : Nat) (p : Pragma) :
    (p.makeRoom start lines bytes).action = p.action := by
  unfold makeRoom
  split <;> rfl

theorem offset_makeRoom (start lines bytes : Nat) (p : Pragma) :
    (p.makeRoom start lines bytes).offset = pushed start bytes p.offset := by
  unfold makeRoom pushed
  split <;> rfl

theorem pushed_le_pushed_iff {start bytes a b : Nat} :
    pushed start bytes a ≤ pushed start bytes b ↔ a ≤ b := by
  unfold pushed
  split <;> split <;> omega

variable {ps qs : List Pragma} {id : String} {offset start lines bytes : Nat}

/-- If the directives about an id are the same ones, moved, then the same one decides. -/
theorem decides_makeRoom_iff
    (h : ∀ q : Pragma, q.appliesTo id = true → q.offset ≤ pushed start bytes offset →
      (q ∈ qs ↔ ∃ p ∈ ps, q = p.makeRoom start lines bytes)) (q : Pragma) :
    Decides qs id (pushed start bytes offset) q ↔
      ∃ p, Decides ps id offset p ∧ q = p.makeRoom start lines bytes := by
  have hmoved : ∀ p : Pragma, p ∈ ps → p.appliesTo id = true → p.offset ≤ offset →
      p.makeRoom start lines bytes ∈ qs := by
    intro p hp happlies hle
    refine (h _ ?_ ?_).mpr ⟨p, hp, rfl⟩
    · rw [appliesTo_makeRoom, happlies]
    · rw [offset_makeRoom, pushed_le_pushed_iff]
      exact hle
  constructor
  · rintro ⟨hq, happlies, hle, hlast⟩
    obtain ⟨p, hp, rfl⟩ := (h q happlies hle).mp hq
    rw [appliesTo_makeRoom] at happlies
    rw [offset_makeRoom, pushed_le_pushed_iff] at hle
    refine ⟨p, ⟨hp, happlies, hle, fun r hr hra hrl => ?_⟩, rfl⟩
    have := hlast _ (hmoved r hr hra hrl) (by rw [appliesTo_makeRoom, hra])
    rw [offset_makeRoom, offset_makeRoom, pushed_le_pushed_iff, pushed_le_pushed_iff] at this
    exact this hrl
  · rintro ⟨p, ⟨hp, happlies, hle, hlast⟩, rfl⟩
    refine ⟨hmoved p hp happlies hle, ?_, ?_, fun q hq hqa hql => ?_⟩
    · rw [appliesTo_makeRoom, happlies]
    · rw [offset_makeRoom, pushed_le_pushed_iff]
      exact hle
    · obtain ⟨r, hr, rfl⟩ := (h q hqa hql).mp hq
      rw [appliesTo_makeRoom] at hqa
      rw [offset_makeRoom, pushed_le_pushed_iff] at hql
      rw [offset_makeRoom, offset_makeRoom, pushed_le_pushed_iff]
      exact hlast r hr hqa hql

/-- What stands in the source after lines are put in: the directives of the lines, and the ones
that were there, moved. -/
theorem mem_parse_insert_iff {above lines : String} (habove : WholeLines above.toList)
    (hlines : WholeLines lines.toList) (below : String) {q : Pragma} :
    q ∈ parse (above ++ (lines ++ below)) ↔
      (∃ r ∈ parse lines, q = r.shift (above.toList.count '\n') above.utf8ByteSize) ∨
        ∃ p ∈ parse (above ++ below),
          q = p.makeRoom above.utf8ByteSize (lines.toList.count '\n') lines.utf8ByteSize := by
  have hupper : ∀ p ∈ parse above, p.makeRoom above.utf8ByteSize (lines.toList.count '\n')
      lines.utf8ByteSize = p := fun p hp => if_pos (offset_lt_of_mem_parse hp)
  have hlower : ∀ p : Pragma, (p.shift (above.toList.count '\n') above.utf8ByteSize).makeRoom
      above.utf8ByteSize (lines.toList.count '\n') lines.utf8ByteSize =
        (p.shift (lines.toList.count '\n') lines.utf8ByteSize).shift
          (above.toList.count '\n') above.utf8ByteSize := by
    intro p
    rw [makeRoom, if_neg (by simp [shift])]
    simp only [shift, Pragma.mk.injEq, true_and]
    omega
  simp only [mem_parse_append_iff habove, mem_parse_append_iff hlines]
  constructor
  · rintro (hq | ⟨r, hr | ⟨p, hp, rfl⟩, rfl⟩)
    · exact Or.inr ⟨q, Or.inl hq, (hupper q hq).symm⟩
    · exact Or.inl ⟨r, hr, rfl⟩
    · exact Or.inr ⟨_, Or.inr ⟨p, hp, rfl⟩, (hlower p).symm⟩
  · rintro (⟨r, hr, rfl⟩ | ⟨p, hp | ⟨p, hp, rfl⟩, rfl⟩)
    · exact Or.inr ⟨r, Or.inl hr, rfl⟩
    · rw [hupper p hp]
      exact Or.inl hp
    · exact Or.inr ⟨_, Or.inr ⟨p, hp, rfl⟩, hlower p⟩

/-- **Lines put into a source change the answer only by directives about the id that stand no later
than the offset.** -/
theorem active?_insert {above lines : String} (habove : WholeLines above.toList)
    (hlines : WholeLines lines.toList) (below : String)
    (hother : offset < above.utf8ByteSize ∨ ∀ r ∈ parse lines, r.appliesTo id = false) :
    active? (parse (above ++ (lines ++ below))) id
        (pushed above.utf8ByteSize lines.utf8ByteSize offset) =
      (active? (parse (above ++ below)) id offset).map
        (makeRoom above.utf8ByteSize (lines.toList.count '\n') lines.utf8ByteSize) := by
  have hsame := @decides_makeRoom_iff (parse (above ++ below)) (parse (above ++ (lines ++ below)))
    id offset above.utf8ByteSize (lines.toList.count '\n') lines.utf8ByteSize ?_
  · ext q
    rw [active?_eq_some_iff (pairwise_parse _), hsame, Option.map_eq_some_iff]
    simp only [active?_eq_some_iff (pairwise_parse _)]
    constructor
    · rintro ⟨haction, p, hp, rfl⟩
      rw [action_makeRoom] at haction
      exact ⟨p, ⟨haction, hp⟩, rfl⟩
    · rintro ⟨p, ⟨haction, hp⟩, rfl⟩
      rw [action_makeRoom]
      exact ⟨haction, p, hp, rfl⟩
  · intro q happlies hle
    rw [mem_parse_insert_iff habove hlines, or_iff_right]
    -- a directive of the lines is about another id, or stands behind the offset
    rintro ⟨r, hr, rfl⟩
    rcases hother with hbehind | hother
    · rw [pushed, if_pos hbehind] at hle
      exact absurd hle (by simp only [shift]; omega)
    · exact absurd (hother r hr) (by rw [show r.appliesTo id = true from happlies]; simp)

/-- **The last directive wins.** For every source, id and offset: the directive in force is the one
that disables, is about the id, stands no later than the offset, and has no other such directive
behind it. None is in force if no directive about the id stands there yet, or if the last one
restores. Directives that are not about the id, and those behind the offset, have no part in the
answer: any other list by offsets that has the same directives but for such ones gives the same
answer, and lines with such directives only, put into the source, do not change it either, except
that they push down what stands below them. -/
theorem last_directive_wins (source id : String) (offset : Nat) :
    (∀ p : Pragma, p.appliesTo id = true ↔
      p.ids = [] ∨ ∃ i ∈ p.ids, Name.lower i = Name.lower id) ∧
    (∀ p, active? (parse source) id offset = some p ↔
      p.action = .disable ∧ p ∈ parse source ∧ p.appliesTo id = true ∧ p.offset ≤ offset ∧
        ¬ ∃ q ∈ parse source, q.appliesTo id = true ∧ p.offset < q.offset ∧ q.offset ≤ offset) ∧
    (active? (parse source) id offset = none ↔
      (∀ q ∈ parse source, q.appliesTo id = true → offset < q.offset) ∨
        ∃ p, p.action = .restore ∧ Decides (parse source) id offset p) ∧
    (∀ qs : List Pragma, qs.Pairwise (fun p q => p.offset < q.offset) →
      (∀ q : Pragma, q.appliesTo id = true → q.offset ≤ offset → (q ∈ qs ↔ q ∈ parse source)) →
      active? qs id offset = active? (parse source) id offset) ∧
    ∀ above lines below : String, source = above ++ below →
      WholeLines above.toList → WholeLines lines.toList →
      (offset < above.utf8ByteSize ∨ ∀ r ∈ parse lines, r.appliesTo id = false) →
      active? (parse (above ++ (lines ++ below))) id
          (pushed above.utf8ByteSize lines.utf8ByteSize offset) =
        (active? (parse source) id offset).map
          (makeRoom above.utf8ByteSize (lines.toList.count '\n') lines.utf8ByteSize) := by
  refine ⟨fun p => appliesTo_iff, fun p => ?_, active?_eq_none_iff (pairwise_parse source), ?_, ?_⟩
  · rw [active?_eq_some_iff (pairwise_parse source)]
    simp only [Decides, not_exists, not_and, Nat.not_le]
    refine and_congr_right fun _ => and_congr_right fun _ => and_congr_right fun _ =>
      and_congr_right fun _ => ⟨fun h q hq hqa hlt => ?_, fun h q hq hqa hle => ?_⟩
    · by_contra hle
      have := h q hq hqa (by omega)
      omega
    · by_contra hlt
      have := h q hq hqa (by omega)
      omega
  · intro qs hqs h
    exact active?_congr hqs (pairwise_parse source) h
  · rintro above lines below rfl habove hlines hother
    exact active?_insert habove hlines below hother

/-- A line that restores another id does not lift a directive above it. -/
theorem last_directive_wins_otherRestored :
    active? (parse "#pragma warning disable LC0040\n#pragma warning restore LC0021\nX();\n")
      "lc0040" 62 = some ⟨.disable, ["LC0040"], 1, 0⟩ := by
  obtain ⟨-, -, -, -, hinsert⟩ :=
    last_directive_wins "#pragma warning disable LC0040\nX();\n" "lc0040" 31
  have hmoved := hinsert "#pragma warning disable LC0040\n" "#pragma warning restore LC0021\n"
    "X();\n" (by decide) (Or.inr ⟨"#pragma warning disable LC0040".toList, by decide⟩)
    (Or.inr ⟨"#pragma warning restore LC0021".toList, by decide⟩) (Or.inr (by decide))
  have hbefore : active? (parse "#pragma warning disable LC0040\nX();\n") "lc0040" 31 =
      some ⟨.disable, ["LC0040"], 1, 0⟩ := by decide
  rw [hbefore] at hmoved
  exact hmoved

end Pragma
end TreeLint
