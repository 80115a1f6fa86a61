import TargetView.Proofs.Sufficiency
import TargetView.Proofs.Sweep

/-! # The arena of a text has room for it

A round of one of the parser's loops after which the loop goes on takes a token.
The last round over arguments need not, since it may meet neither an argument
nor a comma (`idle_argument_round`).  Together with the credit that a token
gives, this bounds the nodes of a text: there are at most three for each of its
bytes and one more.  So in a text with fewer than a third of the bytes that a
number of 32 bits can count, every number is the place of its node
(`progress_parse`).
-/
namespace TargetView

open TargetView.Parser (State operators suffixes arguments operatorRound suffixRound argumentRound
  progress)

/-! ### The rounds of the loops -/

/-- The loops over operators, suffixes and arguments, and what their rounds take
when `n` calls are left to them.  The first two loops end with a round that takes
nothing, the third one with an argument that may be missing. -/
structure Parser.Rounds (n : Nat) : Prop where
  operators : ∀ least left s, operators (n + 1) least left s =
    match operatorRound n least left s with
    | none => (left, s)
    | some r => Parser.operators n least r.1 r.2
  suffixes : ∀ e s, suffixes (n + 1) e s =
    match suffixRound n e s with
    | none => (e, s)
    | some r => Parser.suffixes n r.1 r.2
  arguments : ∀ paths s, arguments (n + 1) paths s =
    let r := argumentRound n paths s
    if r.2.2 then
      (r.1 :: (Parser.arguments n paths r.2.1).1, (Parser.arguments n paths r.2.1).2)
    else ([r.1], r.2.1)
  operatorRound : ∀ least left s, ∀ r ∈ operatorRound n least left s,
    ∃ k, 1 ≤ k ∧ s.Takes k r.2
  suffixRound : 0 < n → ∀ e s, ∀ r ∈ suffixRound n e s, ∃ k, 1 ≤ k ∧ s.Takes k r.2
  argumentRound : ∀ paths s, ∃ k, s.Takes k (argumentRound n paths s).2.1 ∧
    (1 ≤ k ∨ (argumentRound n paths s).2.2 = false ∧
      (argumentRound n paths s).1.isMalformed = true)

theorem Parser.rounds (n : Nat) : Rounds n where
  operators := operators_round n
  suffixes := suffixes_round n
  arguments := arguments_round n
  operatorRound least left s r hr :=
    have ⟨k, hk, _⟩ := (progress n).operatorRound hr
    ⟨k + 1, Nat.le_add_left 1 k, hk⟩
  suffixRound hn e s r hr := by
    obtain ⟨k, hk, -⟩ := (progress n).suffixRound hr
    have hleft := hk.left_add
    have hlt := left_suffixRound_lt hn hr
    exact ⟨k, by omega, hk⟩
  argumentRound paths s := by
    obtain ⟨k, hk, -, hidle⟩ := (progress n).argumentRound paths s
    exact ⟨k, hk, (Nat.eq_zero_or_pos k).symm.imp_right hidle⟩

/-- **A round over arguments may take nothing**: behind the bracket of `f(` there
is no token, but a missing argument is read. -/
theorem idle_argument_round :
    let s := (Parser.start "f(".toList 0).next.next
    (parse "f(").body =
        .expression (.call (.ident "f" ⟨0, 1⟩) [(argumentRound 33 false s).1] ⟨0, 2⟩) ∧
      ¬∃ k, 1 ≤ k ∧ s.Takes k (argumentRound 33 false s).2.1 := by
  have hlex : Lexer.lexAt "f(".toList 0 =
    ⟨[⟨.identifier, "f", ⟨0, 1⟩⟩, ⟨.punctuation, "(", ⟨1, 2⟩⟩, .endAt 2], []⟩ := by decide +kernel
  dsimp only
  constructor
  · rw [parse_of_not_isFormat (by decide +kernel), Template.parseAt, Parser.start, hlex]
    rfl
  · rintro ⟨k, hk, hr⟩
    have hwithin := hr.within
    rw [Parser.start, hlex] at hwithin
    exact absurd (Nat.le_trans hk hwithin) (by decide)

/-! ### Numbers of 32 bits -/

/-- At the mark of the end the cursor stays. -/
theorem Parser.State.next_of_left_eq_zero {s : State} (h : s.left = 0) : s.next = s := by
  have hahead : s.cursor.ahead = [] := List.eq_nil_of_length_eq_zero h
  rw [next, Cursor.next, hahead]

/-- **The parser makes progress, and what it makes of a text is linear in it.**
No call moves the cursor past the mark of the end; every round of a loop takes a
token, unless the loop ends with it; no more calls are needed than are given.
The nodes are at most three for each byte and one more, so below a third of what
32 bits can count, the numbers of 32 bits are the places of the nodes. -/
theorem progress_parse (text : String) :
    let arena := Arena.parse id text
    ((∀ fuel s, ∃ k, State.Takes s k (Parser.whole fuel s).2) ∧
        (∀ n, Parser.Progress n ∧ Parser.Rounds n) ∧
        (∀ s : State, s.left = 0 → s.next = s) ∧
        ∀ (s : State) (m n : Nat), 10 * s.left + 5 ≤ m → m ≤ n →
          Parser.whole n s = Parser.whole m s) ∧
      (arena.nodes = (parse text).listing ∧ arena.nodes.size ≤ 3 * text.utf8ByteSize + 1) ∧
      (3 * (text.utf8ByteSize + 1) < UInt32.size →
        (∀ i < arena.nodes.size, Arena.recorded i = i) ∧
          Arena.parse Arena.recorded text = arena) := by
  have hparse := Arena.parse_eq id text fun _ _ => rfl
  have hsize := size_listing_parse_le text
  dsimp only
  rw [hparse]
  refine ⟨⟨fun fuel s => ?_, fun n => ⟨progress n, Parser.rounds n⟩,
    fun s => State.next_of_left_eq_zero, fun s m n => Parser.whole_eq s⟩, ⟨rfl, hsize⟩,
    fun hbytes => ?_⟩
  · obtain ⟨k, hk, -⟩ := Parser.opens_whole fuel s
    exact ⟨k, hk⟩
  · exact ⟨fun i hi => Arena.recorded_eq (Nat.lt_of_lt_of_le hi (Nat.le_trans hsize (by omega))),
      (Arena.parse_recorded hbytes).trans hparse⟩

/-- The numbers of a text of two bytes. -/
theorem progress_parse_call :
    3 * ("f(".utf8ByteSize + 1) < UInt32.size ∧
      Arena.parse Arena.recorded "f(" = Arena.parse id "f(" :=
  have hbytes : 3 * ("f(".utf8ByteSize + 1) < UInt32.size := by decide
  ⟨hbytes, ((progress_parse "f(").2.2 hbytes).2⟩

end TargetView
