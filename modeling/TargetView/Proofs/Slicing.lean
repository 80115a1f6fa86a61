import TargetView.Diagnostic.Report
import TargetView.Proofs.Layout

/-! # Cutting a text at byte offsets

A text can be cut at an offset exactly if it is the width of what stands before
it (`splitAt?_eq_some_iff`).  All cuts that an excerpt needs lie at the ends of the
span and at line ends, so that a span between characters has an excerpt: the line
that holds its start, in which what belongs to the span is marked
(`excerpt?_eq`).
-/
namespace TargetView.Diagnostic

open Lexer (width width_append width_cons)

variable {cs before inner after : List Char} {n : Nat}

/-! ### Slices -/

/-- A text is cut between two characters, or at one of its ends. -/
theorem splitAt?_eq_some_iff :
    splitAt? n cs = some (before, after) ↔ cs = before ++ after ∧ n = width before := by
  fun_induction splitAt? n cs generalizing before with
  | case1 cs =>
    rw [Option.some.injEq, Prod.mk.injEq]
    constructor
    · rintro ⟨rfl, rfl⟩
      exact ⟨rfl, rfl⟩
    · rintro ⟨rfl, hn⟩
      cases before with
      | nil => exact ⟨rfl, rfl⟩
      | cons c before =>
        have hpos := c.utf8Size_pos
        have hwidth := width_cons c before
        omega
  | case2 n =>
    refine ⟨nofun, fun ⟨hcs, hn⟩ => ?_⟩
    obtain ⟨rfl, -⟩ := List.append_eq_nil_iff.mp hcs.symm
    cases hn
  | case3 n c rest hle ih =>
    rw [Option.map_eq_some_iff]
    constructor
    · rintro ⟨⟨front, back⟩, hsplit, heq⟩
      obtain ⟨rfl, rfl⟩ := Prod.mk.inj heq
      obtain ⟨rfl, hn⟩ := ih.mp hsplit
      have hwidth := width_cons c front
      exact ⟨rfl, by omega⟩
    · rintro ⟨hcs, hn⟩
      cases before with
      | nil => cases hn
      | cons d front =>
        obtain ⟨rfl, rfl⟩ := List.cons.inj hcs
        have hwidth := width_cons c front
        exact ⟨(front, after), ih.mpr ⟨rfl, by omega⟩, rfl⟩
  | case4 n c rest hle =>
    refine ⟨nofun, fun ⟨hcs, hn⟩ => ?_⟩
    cases before with
    | nil => cases hn
    | cons d front =>
      obtain ⟨rfl, rfl⟩ := List.cons.inj hcs
      have hwidth := width_cons c front
      omega

/-- What stands between two places is the slice from the one to the other. -/
theorem slice?_eq {i j : Nat} (hcs : cs = before ++ inner ++ after) (hi : i = width before)
    (hj : j = i + width inner) : slice? i j cs = some inner := by
  subst hj
  have hbefore : splitAt? i cs = some (before, inner ++ after) :=
    splitAt?_eq_some_iff.mpr ⟨by rw [hcs, List.append_assoc], hi⟩
  have hinner : splitAt? (width inner) (inner ++ after) = some (inner, after) :=
    splitAt?_eq_some_iff.mpr ⟨rfl, rfl⟩
  rw [slice?, if_pos (Nat.le_add_right _ _), hbefore, Nat.add_sub_cancel_left]
  simp only [Option.bind_eq_bind, Option.bind_some, hinner]
  rfl

/-! ### Lines -/

theorem width_reverse (cs : List Char) : width cs.reverse = width cs := by
  induction cs with
  | nil => rfl
  | cons c cs ih =>
    rw [List.reverse_cons, width_append, ih, Nat.add_comm]
    rfl

/-- What stands on the last line of a text. -/
def lastLine (cs : List Char) : List Char := (cs.reverse.takeWhile (· != '\n')).reverse

/-- What stands on the first line of a text. -/
def firstLine (cs : List Char) : List Char := cs.takeWhile (· != '\n')

theorem exists_append_lastLine (cs : List Char) : ∃ front, cs = front ++ lastLine cs := by
  refine ⟨(cs.reverse.dropWhile (· != '\n')).reverse, ?_⟩
  rw [lastLine, ← List.reverse_append, List.takeWhile_append_dropWhile, List.reverse_reverse]

/-- The part of a stretch on its first line ends with the stretch or the line. -/
theorem exists_firstLine_append (inner after : List Char) : ∃ back,
    firstLine (inner ++ after) = firstLine inner ++ back ∧
      min (width inner) (width (firstLine (inner ++ after))) = width (firstLine inner) := by
  have hfront : firstLine inner <+: inner := List.takeWhile_prefix _
  unfold firstLine at *
  rw [List.takeWhile_append]
  split
  · next hlength =>
    rw [hfront.eq_of_length hlength]
    refine ⟨_, rfl, ?_⟩
    rw [width_append]
    omega
  · obtain ⟨more, hmore⟩ := hfront
    refine ⟨[], (List.append_nil _).symm, Nat.min_eq_right ?_⟩
    rw [← hmore, width_append, hmore]
    omega

/-! ### Excerpts -/

/-- **The excerpt for a span between characters** is the line that holds its
start, with the part of the span on this line marked. -/
theorem excerpt?_eq {span : Span} (hcs : cs = before ++ inner ++ after)
    (hstart : span.start = width before) (hstop : span.stop = span.start + width inner) :
    excerpt? cs span = some
      { line := lastLine before ++ firstLine (inner ++ after)
        column := (lastLine before).length
        width := max 1 (firstLine inner).length } := by
  obtain ⟨front, hfront⟩ := exists_append_lastLine before
  obtain ⟨back, hmarked, hend⟩ := exists_firstLine_append inner after
  obtain ⟨below, hbelow⟩ : ∃ below, inner ++ after = firstLine (inner ++ after) ++ below :=
    ⟨_, (List.takeWhile_append_dropWhile ..).symm⟩
  have hrest : cs = before ++ (inner ++ after) := by rw [hcs, List.append_assoc]
  have hfull : cs = front ++ (lastLine before ++ firstLine (inner ++ after)) ++ below := by
    rw [← List.append_assoc, ← hfront, List.append_assoc, ← hbelow, hrest]
  have hwidth : width cs = width before + width (inner ++ after) := by rw [hrest, width_append]
  have hlast : width (before.reverse.takeWhile (· != '\n')) = width (lastLine before) :=
    (width_reverse _).symm
  have hsplit : width before = width front + width (lastLine before) := by
    rw [← width_append, ← hfront]
  have hoffset : min span.start (width cs) = width before := by omega
  have hlineStart : width before - width (lastLine before) = width front := by omega
  have hlineEnd : min span.stop (width before + width (firstLine (inner ++ after))) =
      width before + width (firstLine inner) := by omega
  -- The slices in the order in which they are cut.
  have habove : slice? 0 (width before) cs = some before :=
    slice?_eq (show cs = [] ++ before ++ (inner ++ after) from hrest) rfl (Nat.zero_add _).symm
  have hahead : slice? (width before) (width cs) cs = some (inner ++ after) :=
    slice?_eq (by rw [hrest, List.append_nil]) rfl hwidth
  have hline : slice? (width front) (width before + width (firstLine (inner ++ after))) cs =
      some (lastLine before ++ firstLine (inner ++ after)) := by
    refine slice?_eq hfull rfl ?_
    rw [width_append, hsplit, Nat.add_assoc]
  have hhead : slice? (width front) (width before) cs = some (lastLine before) :=
    slice?_eq (by rw [← hfront, hrest]) rfl hsplit
  have hspan : slice? (width before) (width before + width (firstLine inner)) cs =
      some (firstLine inner) := by
    have hmark : cs = before ++ firstLine inner ++ (back ++ below) := by
      rw [hrest, hbelow, hmarked]
      simp only [List.append_assoc]
    exact slice?_eq hmark rfl rfl
  unfold excerpt?
  simp only [hoffset, habove, hahead, Option.bind_eq_bind, Option.bind_some, hlast, hlineStart]
  rw [← firstLine, hline, hhead, hlineEnd, hspan]
  rfl

end TargetView.Diagnostic
