import TargetView.Proofs.Layout

/-! # Lexing loses nothing

The lexemes of a text stand in it one behind the other, each where its offset
says, and what is left over are gaps.  `Covers` says the same of tokens and of
the bytes of the text: every byte belongs to exactly one token or to a gap.  It
holds of the tokens of every text whose places can be recorded
(`lexAt_covers`).
-/
namespace TargetView.Lexer

/-- The bytes of the characters that are skipped between lexemes: the space, the
tab, the two line ends and the form feed. -/
def gapBytes : List UInt8 := [0x20, 0x09, 0x0D, 0x0A, 0x0C]

/-- The tokens of a text that starts at byte `base` of a larger one account for
all of its bytes. -/
structure Covers (text : String) (base : Nat) (ts : List Token) : Prop where
  notEnd : ∀ t ∈ ts, t.isEnd = false
  nonempty : ∀ t ∈ ts, t.text ≠ "" ∧ t.span.start < t.span.stop
  within : ∀ t ∈ ts, base ≤ t.span.start ∧ t.span.stop ≤ base + text.utf8ByteSize
  slice : ∀ t ∈ ts, t.text.toByteArray =
    text.toByteArray.extract (t.span.start - base) (t.span.stop - base)
  apart : ts.Pairwise fun t u => t.span.stop ≤ u.span.start
  skipped : ∀ (i : Nat) (hi : i < text.toByteArray.size),
    (∀ t ∈ ts, t.span.contains (base + i) = false) → text.toByteArray[i] ∈ gapBytes
  rejoined : ∃ (gaps : List (List Char)) (last : List Char), gaps.length = ts.length ∧
    (∀ gap ∈ last :: gaps, ∀ c ∈ gap, isGap c = true) ∧
    text.toList = ((gaps.zip ts).flatMap fun p => p.1 ++ p.2.text.toList) ++ last

variable {offset base i : Nat} {cs : List Char} {ls : List Lexeme} {l : Lexeme}

/-! ### Bytes of characters -/

theorem size_utf8Encode (cs : List Char) : cs.utf8Encode.size = width cs := by
  induction cs with
  | nil => rfl
  | cons c cs ih =>
    rw [List.utf8Encode_cons, ByteArray.size_append, ih, List.utf8Encode_singleton,
      List.size_toByteArray, String.length_utf8EncodeChar]
    rfl

theorem width_toList (text : String) : width text.toList = text.utf8ByteSize := by
  rw [← size_utf8Encode, String.utf8Encode_toList, String.size_toByteArray]

/-- A gap is a single byte. -/
theorem utf8Encode_gap {c : Char} (hc : isGap c = true) :
    ∃ b ∈ gapBytes, [c].utf8Encode = [b].toByteArray := by
  simp only [isGap, Bool.or_eq_true, beq_iff_eq] at hc
  rcases hc with (((rfl | rfl) | rfl) | rfl) | rfl
  · exact ⟨0x20, by decide, rfl⟩
  · exact ⟨0x09, by decide, rfl⟩
  · exact ⟨0x0D, by decide, rfl⟩
  · exact ⟨0x0A, by decide, rfl⟩
  · exact ⟨0x0C, by decide, rfl⟩

theorem width_pos (h : cs ≠ []) : 0 < width cs := by
  cases cs with
  | nil => exact absurd rfl h
  | cons c cs => exact Nat.lt_of_lt_of_le c.utf8Size_pos (Nat.le_add_right _ _)

/-! ### Lexemes in the text -/

namespace Layout

theorem chars_ne_nil (h : Layout offset cs ls) : ∀ l ∈ ls, l.chars ≠ [] := by
  induction h with
  | nil => nofun
  | gap _ _ ih => exact ih
  | bare hl _ ih => exact List.forall_mem_cons.mpr ⟨hl.nonempty, ih⟩
  | quoted hl _ _ ih =>
    exact List.forall_mem_cons.mpr ⟨by rw [hl.chars]; exact List.cons_ne_nil _ _, ih⟩

/-- A lexeme stands in the text where its offset says. -/
theorem placed (h : Layout offset cs ls) : ∀ l ∈ ls, ∃ before after,
    cs = before ++ l.chars ++ after ∧ l.offset = offset + width before := by
  induction h with
  | nil => nofun
  | @gap offset c rest ls _ _ ih =>
    intro l hl
    obtain ⟨before, after, rfl, hoffset⟩ := ih l hl
    exact ⟨c :: before, after, rfl, by rw [hoffset, Nat.add_assoc]; rfl⟩
  | @bare first rest ls _ _ ih | @quoted first _ _ rest ls _ _ _ ih =>
    refine List.forall_mem_cons.mpr ⟨⟨[], rest, rfl, rfl⟩, fun l hl => ?_⟩
    obtain ⟨before, after, rfl, hoffset⟩ := ih l hl
    refine ⟨first.chars ++ before, after, by simp only [List.append_assoc], ?_⟩
    rw [hoffset, width_append, Nat.add_assoc]

/-- The bytes of a lexeme are those of the text at its place. -/
theorem extract_eq (h : Layout 0 cs ls) : ∀ l ∈ ls,
    cs.utf8Encode.extract l.offset (l.offset + width l.chars) = l.chars.utf8Encode := by
  intro l hl
  obtain ⟨before, after, rfl, hoffset⟩ := h.placed l hl
  rw [hoffset, Nat.zero_add, ← size_utf8Encode, ← size_utf8Encode, List.append_assoc,
    List.utf8Encode_append, List.utf8Encode_append]
  have hshift := ByteArray.extract_append_size_add (a := before.utf8Encode)
    (b := l.chars.utf8Encode ++ after.utf8Encode) (i := 0) (j := l.chars.utf8Encode.size)
  rw [Nat.add_zero] at hshift
  rw [hshift, ByteArray.extract_append_eq_left rfl]

/-- Every lexeme ends before the next one starts. -/
theorem pairwise (h : Layout offset cs ls) :
    ls.Pairwise fun l l' => l.offset + width l.chars ≤ l'.offset := by
  induction h with
  | nil => exact .nil
  | gap _ _ ih => exact ih
  | bare _ h ih | quoted _ _ h ih => exact .cons h.le_offset ih

/-- A byte within no lexeme is one of a gap. -/
theorem byte_mem (h : Layout offset cs ls) (hi : i < cs.utf8Encode.size)
    (hout : ∀ l ∈ ls, ¬(l.offset ≤ offset + i ∧ offset + i < l.offset + width l.chars)) :
    cs.utf8Encode[i] ∈ gapBytes := by
  induction h generalizing i with
  | nil => exact absurd hi (Nat.not_lt_zero i)
  | @gap offset c rest ls hc h ih =>
    obtain ⟨b, hb, hbyte⟩ := utf8Encode_gap hc
    have hsize : [c].utf8Encode.size = 1 := by rw [hbyte]; rfl
    have hwidth : c.utf8Size = 1 := (size_utf8Encode [c]).symm.trans hsize
    have hbytes : (c :: rest).utf8Encode = [c].utf8Encode ++ rest.utf8Encode :=
      List.utf8Encode_cons
    simp only [hbytes] at hi ⊢
    rw [ByteArray.size_append, hsize] at hi
    cases i with
    | zero =>
      rw [ByteArray.getElem_append_left (by rw [hsize]; exact Nat.one_pos)]
      simp only [hbyte]
      exact hb
    | succ i =>
      rw [ByteArray.getElem_append_right (by rw [hsize]; exact Nat.le_add_left 1 i)]
      simp only [hsize, Nat.add_sub_cancel]
      refine ih (by omega) fun l hl => ?_
      rw [hwidth, Nat.add_assoc, Nat.add_comm 1]
      exact hout l hl
  | @bare l rest ls _ h ih | @quoted l _ _ rest ls _ _ h ih =>
    obtain ⟨hfirst, hrest⟩ := List.forall_mem_cons.mp hout
    have hle : width l.chars ≤ i := by omega
    have hbytes : (l.chars ++ rest).utf8Encode = l.chars.utf8Encode ++ rest.utf8Encode :=
      List.utf8Encode_append
    simp only [hbytes] at hi ⊢
    rw [ByteArray.size_append, size_utf8Encode l.chars] at hi
    rw [ByteArray.getElem_append_right (by rw [size_utf8Encode]; exact hle)]
    simp only [size_utf8Encode]
    refine ih (by omega) fun l' hl' => ?_
    rw [Nat.add_assoc, Nat.add_sub_cancel' hle]
    exact hrest l' hl'

/-- Lexemes with gaps before them, and a gap behind the last, are the text. -/
theorem rejoined (h : Layout offset cs ls) :
    ∃ (gaps : List (List Char)) (last : List Char), gaps.length = ls.length ∧
      (∀ gap ∈ last :: gaps, ∀ c ∈ gap, isGap c = true) ∧
      cs = ((gaps.zip ls).flatMap fun p => p.1 ++ p.2.chars) ++ last := by
  induction h with
  | nil => exact ⟨[], [], rfl, List.forall_mem_singleton.mpr nofun, rfl⟩
  | @gap offset c rest ls hc h ih =>
    obtain ⟨gaps, last, hlength, hgaps, htext⟩ := ih
    obtain ⟨hlast, hgaps⟩ := List.forall_mem_cons.mp hgaps
    cases ls with
    | nil =>
      obtain rfl := List.eq_nil_of_length_eq_zero hlength
      refine ⟨[], c :: last, rfl, List.forall_mem_singleton.mpr ?_, congrArg (c :: ·) htext⟩
      exact List.forall_mem_cons.mpr ⟨hc, hlast⟩
    | cons l ls =>
      obtain ⟨gap, gaps, rfl⟩ := List.exists_cons_of_length_eq_add_one hlength
      obtain ⟨hgap, hgaps⟩ := List.forall_mem_cons.mp hgaps
      refine ⟨(c :: gap) :: gaps, last, hlength, ?_, congrArg (c :: ·) htext⟩
      exact List.forall_mem_cons.mpr ⟨hlast, List.forall_mem_cons.mpr
        ⟨List.forall_mem_cons.mpr ⟨hc, hgap⟩, hgaps⟩⟩
  | @bare l rest ls _ h ih | @quoted l _ _ rest ls _ _ h ih =>
    obtain ⟨gaps, last, hlength, hgaps, htext⟩ := ih
    obtain ⟨hlast, hgaps⟩ := List.forall_mem_cons.mp hgaps
    refine ⟨[] :: gaps, last, congrArg (· + 1) hlength, ?_, ?_⟩
    · exact List.forall_mem_cons.mpr ⟨hlast, List.forall_mem_cons.mpr ⟨nofun, hgaps⟩⟩
    · rw [htext, ← List.append_assoc]
      rfl

end Layout

/-! ### Tokens of the text -/

/-- As long as places can be recorded, a token spans its lexeme. -/
theorem Lexeme.span_eq (h : base + (l.offset + width l.chars) ≤ Span.limit) :
    l.span base = ⟨base + l.offset, base + (l.offset + width l.chars)⟩ := by
  have hstart : min (min l.offset Span.limit + base) Span.limit = base + l.offset := by omega
  have hstop : min (min (l.offset + width l.chars) Span.limit + base) Span.limit =
      base + (l.offset + width l.chars) := by omega
  rw [Lexeme.span, Span.ofRange, Span.shift, hstart, hstop]

/-- **Lexing loses nothing.**  The tokens of a text whose places can be recorded
end with the mark of the end, behind the last byte, and the others account for
all bytes: each is the part of the text that its span says, they do not overlap,
and what is between them is skipped characters. -/
theorem lexAt_covers (text : String) (base : Nat) (h : base + text.utf8ByteSize ≤ Span.limit) :
    ∃ ts, (lexAt text.toList base).tokens = ts ++ [.endAt (base + text.utf8ByteSize)] ∧
      Covers text base ts := by
  have hlayout := layout_lexemes 0 text.toList
  have hinside : ∀ l ∈ lexemes 0 text.toList,
      l.offset + width l.chars ≤ text.utf8ByteSize := by
    intro l hl
    obtain ⟨before, after, htext, hoffset⟩ := hlayout.placed l hl
    rw [← width_toList, htext, width_append, width_append, hoffset]
    omega
  have hspan : ∀ l ∈ lexemes 0 text.toList,
      l.span base = ⟨base + l.offset, base + (l.offset + width l.chars)⟩ := fun l hl =>
    Lexeme.span_eq (Nat.le_trans (Nat.add_le_add_left (hinside l hl) base) h)
  refine ⟨(lexemes 0 text.toList).map (·.token base), ?_, ?_⟩
  · have hstop : min (min (width text.toList) Span.limit + base) Span.limit =
        base + text.utf8ByteSize := by
      rw [width_toList]
      omega
    rw [lexAt, hstop]
  constructor
  case notEnd =>
    refine List.forall_mem_map.mpr fun l hl => ?_
    exact beq_eq_false_iff_ne.mpr (kind_ne_end_of_mem_lexemes 0 text.toList l hl)
  case nonempty =>
    refine List.forall_mem_map.mpr fun l hl => ?_
    have hne := hlayout.chars_ne_nil l hl
    have hpos := width_pos hne
    refine ⟨fun hempty => hne ?_, ?_⟩
    · exact (String.toList_ofList).symm.trans (congrArg String.toList hempty)
    · show (l.span base).start < (l.span base).stop
      rw [hspan l hl]
      dsimp only
      omega
  case within =>
    refine List.forall_mem_map.mpr fun l hl => ?_
    show base ≤ (l.span base).start ∧ (l.span base).stop ≤ _
    rw [hspan l hl]
    exact ⟨Nat.le_add_right _ _, Nat.add_le_add_left (hinside l hl) base⟩
  case slice =>
    refine List.forall_mem_map.mpr fun l hl => ?_
    show (String.ofList l.chars).toByteArray =
      text.toByteArray.extract ((l.span base).start - base) ((l.span base).stop - base)
    rw [hspan l hl, String.toByteArray_ofList, ← hlayout.extract_eq l hl,
      String.utf8Encode_toList]
    dsimp only
    rw [Nat.add_sub_cancel_left, Nat.add_sub_cancel_left]
  case apart =>
    refine List.pairwise_map.mpr (hlayout.pairwise.imp_of_mem fun {l l'} hl hl' hle => ?_)
    show (l.span base).stop ≤ (l'.span base).start
    rw [hspan l hl, hspan l' hl']
    exact Nat.add_le_add_left hle base
  case skipped =>
    intro i hi hout
    have hbytes : text.toList.utf8Encode = text.toByteArray := String.utf8Encode_toList
    simp only [← hbytes] at hi ⊢
    refine hlayout.byte_mem hi fun l hl hin => ?_
    have hno := hout (l.token base) (List.mem_map_of_mem hl)
    have hcontains : (l.token base).span.contains (base + i) = true := by
      show (l.span base).contains (base + i) = true
      rw [hspan l hl, Span.contains, Bool.and_eq_true, decide_eq_true_eq, decide_eq_true_eq]
      dsimp only
      omega
    rw [hcontains] at hno
    cases hno
  case rejoined =>
    obtain ⟨gaps, last, hlength, hgaps, htext⟩ := hlayout.rejoined
    refine ⟨gaps, last, by rw [hlength, List.length_map], hgaps, htext.trans ?_⟩
    rw [List.zip_map_right, List.flatMap_map]
    simp [Lexeme.token]

theorem lexAt_covers_fragment :
    let text := "1e+ 'ü\\'"
    7 + text.utf8ByteSize ≤ Span.limit ∧
      ∃ ts, (lexAt text.toList 7).tokens = ts ++ [.endAt (7 + text.utf8ByteSize)] ∧
        Covers text 7 ts :=
  ⟨by decide, lexAt_covers _ 7 (by decide)⟩

end TargetView.Lexer
