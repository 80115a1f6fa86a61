import TargetView.Proofs.Apart
import TargetView.Proofs.Reads
import TargetView.Proofs.Watching

/-! # The rounds of a loop

A run of a loop consists of rounds, each of them a run of its body.  `Rounds`
says which ones: it follows the tests and the bodies, whatever they do, and
knows of no greatest number of iterations.  That a loop keeps to this number is
`run_iterate`.

Without a condition the index alone decides.  It counts up from the start
whatever the bodies do to the symbol of the loop, so the rounds are as many as
lie between the start and the limit (`Rounds.of_bounded`).
-/
namespace TargetView

variable {τ : Type}

/-- A run of the body of a loop. -/
structure Round (τ : Type) where
  before : PassState τ
  result : Except Abort (List Row)
  after : PassState τ

/-- The rows that a round leaves in the view. -/
def Round.rows (r : Round τ) : List Row := r.result.toOption.getD []

/-- The rounds that a loop runs from an index and a state on, how it ends, and
in which state.  It ends with a test, or with a round that is aborted. -/
inductive Rounds (goesOn : Int64 → Pass τ Bool) (body : Pass τ (List Row)) :
    Int64 → PassState τ → List (Round τ) → Except Abort Bool → PassState τ → Prop
  | tested {index s result t} (htest : (goesOn index).run.run s = (result, t)) :
      Rounds goesOn body index s [] result t
  | aborted {index s t u e} (htest : (goesOn index).run.run s = (.ok true, t))
      (hbody : body.run.run t = (.error e, u)) :
      Rounds goesOn body index s [⟨t, .error e, u⟩] (.error e) u
  | round {index s t u v rows rounds result}
      (htest : (goesOn index).run.run s = (.ok true, t))
      (hbody : body.run.run t = (.ok rows, u))
      (hrest : Rounds goesOn body (index + 1) u rounds result v) :
      Rounds goesOn body index s (⟨t, .ok rows, u⟩ :: rounds) result v

/-- The variable of a loop, if it has one, holds a number. -/
def Loop.Holds (l : Loop) (s : PassState τ) (i : Int) : Prop :=
  ∀ name ∈ l.name?, s.machine.store.get? name = some (.number (.ofInt i))

namespace Pass

/-! ## All loops -/

theorem appendList_append {α : Type} (items : Array α) (more rest : List α) :
    items ++ more ++ rest = items ++ (more ++ rest) := by
  apply Array.ext'
  simp

/-- Every run of a loop consists of rounds, of which there are no more than the
greatest number; it goes on behind the last one only if there are that many. -/
theorem run_iterate (goesOn : Int64 → Pass τ Bool) (body : Pass τ (List Row)) (fuel : Nat) :
    ∀ (index : Int64) (s : PassState τ) (rows : Array Row), ∃ rounds result t,
      Rounds goesOn body index s rounds result t ∧
      rounds.length ≤ fuel ∧ (result = .ok true → rounds.length = fuel) ∧
      (iterate goesOn body fuel index rows).run.run s =
        (result.map fun _ => rows ++ rounds.flatMap Round.rows, t) := by
  have hnone (rows : Array Row) (t : PassState τ) :
      ((.ok rows, t) : Except Abort (Array Row) × PassState τ) =
        (.ok (rows ++ ([] : List Row)), t) := by
    rw [Array.appendList_nil]
  induction fuel with
  | zero =>
    -- The test comes once more behind the last round, for what it does to the variable.
    intro index s rows
    rw [iterate]
    rcases htest : (goesOn index).run.run s with ⟨e | goes, t⟩
    · refine ⟨[], .error e, t, .tested htest, Nat.le_refl 0, ?_,
        run_bind_of_error (run_bind_of_error htest)⟩
      intro hgoes
      cases hgoes
    · refine ⟨[], .ok goes, t, .tested htest, Nat.le_refl 0, fun _ => rfl, ?_⟩
      have htested : (discard (goesOn index)).run.run s = (.ok (), t) := run_bind_of_ok htest
      exact (run_bind_of_ok htested).trans (hnone rows t)
  | succ fuel ih =>
    intro index s rows
    rw [iterate]
    rcases htest : (goesOn index).run.run s with ⟨e | _ | _, t⟩
    · refine ⟨[], .error e, t, .tested htest, Nat.zero_le _, ?_, run_bind_of_error htest⟩
      intro hgoes
      cases hgoes
    · refine ⟨[], .ok false, t, .tested htest, Nat.zero_le _, ?_,
        (run_bind_of_ok htest).trans (hnone rows t)⟩
      intro hgoes
      cases hgoes
    · rcases hbody : body.run.run t with ⟨e | more, u⟩
      · refine ⟨_, .error e, u, .aborted htest hbody, Nat.le_add_left 1 fuel, ?_,
          (run_bind_of_ok htest).trans (run_bind_of_error hbody)⟩
        intro hgoes
        cases hgoes
      · obtain ⟨rounds, result, v, hrest, hle, hall, hrun⟩ := ih (index + 1) u (rows ++ more)
        refine ⟨_, result, v, .round htest hbody hrest, Nat.succ_le_succ hle,
          fun hgoes => congrArg Nat.succ (hall hgoes), ?_⟩
        refine ((run_bind_of_ok htest).trans (run_bind_of_ok hbody)).trans (hrun.trans ?_)
        rw [appendList_append]
        rfl

variable (S : Setting τ)

/-- The start and the limit of a loop, as they are on entry. -/
def bounds (l : Loop) : Pass τ (Int64 × Int64) := do
  let start ← intOr S 0 l.start?
  let limit ← intOr S 0 l.limit?
  return (start, limit)

theorem loop_of_isConsistent {l : Loop} (hl : l.isConsistent = true) (line : Nat)
    (body : Pass τ (List Row)) :
    loop S l line body = (do
      let bounds ← bounds S l
      let rows ← iterate (goesOn S l bounds.2) body S.config.maxIterations bounds.1 #[]
      return rows.toList) := by
  simp only [loop, hl, if_true, bounds, bind_assoc, pure_bind]

/-- A run of a loop from a state on, once its bounds are known. -/
structure LoopRun (l : Loop) (body : Pass τ (List Row)) (s : PassState τ) where
  start : Int64
  limit : Int64
  entered : PassState τ
  rounds : List (Round τ)
  result : Except Abort Bool
  left : PassState τ
  enters : (bounds S l).run.run s = (.ok (start, limit), entered)
  runs : Rounds (goesOn S l limit) body start entered rounds result left

variable {S} {l : Loop} {body : Pass τ (List Row)} {s : PassState τ}

/-- What the loop gives: the rows of the rounds in order, unless it is aborted. -/
def LoopRun.outcome (run : LoopRun S l body s) : Except Abort (List Row) :=
  run.result.map fun _ => run.rounds.flatMap Round.rows

theorem LoopRun.exists_result (run : LoopRun S l body s) {rows : List Row}
    (h : run.outcome = .ok rows) : ∃ goes, run.result = .ok goes := by
  rw [outcome] at h
  cases hresult : run.result with
  | ok goes => exact ⟨goes, rfl⟩
  | error e =>
    rw [hresult] at h
    cases h

/-- **No loop has too many rounds.**  A loop ends with its bounds, or it consists
of rounds. -/
theorem run_loop (hl : l.isConsistent = true) (line : Nat) (body : Pass τ (List Row))
    (s : PassState τ) :
    (∃ e t, (bounds S l).run.run s = (.error e, t) ∧
      (loop S l line body).run.run s = (.error e, t)) ∨
    ∃ run : LoopRun S l body s, (loop S l line body).run.run s = (run.outcome, run.left) ∧
      run.rounds.length ≤ S.config.maxIterations ∧
      (run.result = .ok true → run.rounds.length = S.config.maxIterations) := by
  rw [loop_of_isConsistent S hl]
  rcases hbounds : (bounds S l).run.run s with ⟨e | ⟨start, limit⟩, u⟩
  · exact .inl ⟨e, u, rfl, run_bind_of_error hbounds⟩
  · obtain ⟨rounds, result, t, hrounds, hle, hall, hrun⟩ :=
      run_iterate (goesOn S l limit) body S.config.maxIterations start u #[]
    refine .inr ⟨⟨start, limit, u, rounds, result, t, hbounds, hrounds⟩, ?_, hle, hall⟩
    refine (run_bind_of_ok hbounds).trans ?_
    cases result with
    | error e => exact run_bind_of_error hrun
    | ok goes =>
      refine (run_bind_of_ok hrun).trans ?_
      have hrows : ((#[] : Array Row) ++ rounds.flatMap Round.rows).toList =
          rounds.flatMap Round.rows := by simp
      exact congrArg (fun rows => (Except.ok rows, t)) hrows

/-! ## Loops without a condition -/

/-- Without a condition the index decides; the variable holds it then. -/
theorem run_goesOn (hwhile : l.while? = none) (limit index : Int64) (s : PassState τ) :
    ∃ t, (goesOn S l limit index).run.run s = (.ok (decide (index < limit)), t) ∧
      l.Holds t index.toInt := by
  unfold goesOn
  rw [hwhile]
  cases hname : l.name? with
  | none =>
    refine ⟨s, rfl, fun name hmem => ?_⟩
    rw [hname] at hmem
    cases hmem
  | some name =>
    refine ⟨_, rfl, fun name' hmem => ?_⟩
    rw [hname] at hmem
    cases hmem
    exact (Store.get?_set _ _ _ _).trans (if_pos rfl)

/-- A loop without a condition goes on below its limit only. -/
theorem lt_of_goesOn (hwhile : l.while? = none) {limit index : Int64} {s t : PassState τ}
    (h : (goesOn S l limit index).run.run s = (.ok true, t)) :
    index < limit ∧ l.Holds t index.toInt := by
  obtain ⟨_, hrun, hheld⟩ := run_goesOn hwhile limit index s
  rw [hrun] at h
  obtain ⟨hgoes, rfl⟩ := Prod.mk.inj h
  exact ⟨of_decide_eq_true (Except.ok.inj hgoes), hheld⟩

theorem toInt_succ_of_lt {index limit : Int64} (h : index < limit) :
    (index + 1).toInt = index.toInt + 1 := by
  have hlt := Int64.lt_iff_toInt_lt.mp h
  have hlimit := limit.toInt_lt
  have hindex := index.le_toInt
  have hone : (1 : Int64).toInt = 1 := rfl
  rw [Int64.toInt_add, hone, Int.bmod_eq_of_le]
  all_goals omega

end Pass

open Pass

section

variable {S : Setting τ} {l : Loop} {body : Pass τ (List Row)}

theorem Loop.holds_cons {i : Int} {first : Round τ} {rounds : List (Round τ)}
    (hfirst : l.Holds first.before i)
    (hrest : ∀ (j : Nat) (round : Round τ), rounds[j]? = some round →
      l.Holds round.before (i + 1 + j)) (j : Nat) (round : Round τ)
    (hj : (first :: rounds)[j]? = some round) : l.Holds round.before (i + j) := by
  cases j with
  | zero =>
    obtain rfl := Option.some.inj hj
    rw [Int.natCast_zero, Int.add_zero]
    exact hfirst
  | succ j =>
    rw [Int.natCast_succ, Int.add_comm (j : Int) 1, ← Int.add_assoc]
    exact hrest j round hj

/-- **The rounds of a loop without a condition are as many as lie between its
bounds**, if none of them is aborted and it is not stopped before.  Its variable
holds the index at the start of each, and behind the last one. -/
theorem Rounds.of_bounded (hwhile : l.while? = none) {limit index : Int64} {s t : PassState τ}
    {rounds : List (Round τ)} {result : Except Abort Bool}
    (h : Rounds (goesOn S l limit) body index s rounds result t) :
    (∀ (j : Nat) (round : Round τ), rounds[j]? = some round →
      l.Holds round.before (index.toInt + j)) ∧
    rounds.length ≤ (limit.toInt - index.toInt).toNat ∧
    ∀ goes, result = .ok goes →
      (goes = false → rounds.length = (limit.toInt - index.toInt).toNat) ∧
      l.Holds t (index.toInt + rounds.length) := by
  induction h with
  | @tested index s result t htest =>
    obtain ⟨_, hrun, hheld⟩ := run_goesOn hwhile limit index s
    rw [hrun] at htest
    obtain ⟨rfl, rfl⟩ := Prod.mk.inj htest
    refine ⟨nofun, Nat.zero_le _, fun goes hgoes => ⟨fun hstop => ?_, ?_⟩⟩
    · have hlimit : ¬index < limit := by
        rw [hstop] at hgoes
        exact of_decide_eq_false (Except.ok.inj hgoes)
      rw [Int64.lt_iff_toInt_lt] at hlimit
      rw [List.length_nil]
      omega
    · rw [List.length_nil, Int.natCast_zero, Int.add_zero]
      exact hheld
  | @aborted index s t u e htest hbody =>
    obtain ⟨hlt, hheld⟩ := lt_of_goesOn hwhile htest
    have hbounds := Int64.lt_iff_toInt_lt.mp hlt
    refine ⟨Loop.holds_cons hheld nofun, ?_, nofun⟩
    rw [List.length_singleton]
    omega
  | @round index s t u v rows rounds result htest hbody hrest ih =>
    obtain ⟨hlt, hheld⟩ := lt_of_goesOn hwhile htest
    have hbounds := Int64.lt_iff_toInt_lt.mp hlt
    -- No rest of the rounds starts beyond the limit, so the index does not wrap.
    obtain ⟨hheld', hle, hend⟩ := ih
    rw [toInt_succ_of_lt hlt] at hheld' hle hend
    refine ⟨Loop.holds_cons hheld hheld', ?_, fun goes hgoes => ?_⟩
    · rw [List.length_cons]
      omega
    · obtain ⟨hstop, hlast⟩ := hend goes hgoes
      rw [List.length_cons]
      refine ⟨fun hgoes => ?_, ?_⟩
      · have hlength := hstop hgoes
        omega
      · rw [Int.natCast_succ, Int.add_comm (rounds.length : Int) 1, ← Int.add_assoc]
        exact hlast

end

/-- **Loops run the rounds that they are to run.**  The bounds of a loop are
evaluated once, when it is entered.  If it has no condition, the rounds before
it ends or is aborted are no more than lie between the bounds and than the
greatest number of iterations, and exactly as many unless it is aborted; its
variable holds the index at the start of each round and at the end, whatever the
bodies assign, and it leaves the rows of the rounds in order.  A loop with a
condition alone has no more rounds than the greatest number.  So in every pass
over every tree a bounded number of statements take effect. -/
theorem loops_run_their_rounds (S : Setting τ) :
    (∀ (l : Loop) (line : Nat) (body : Pass τ (List Row)) (s : PassState τ), l.while? = none →
      (∃ e t, (bounds S l).run.run s = (.error e, t) ∧
        (loop S l line body).run.run s = (.error e, t)) ∨
      ∃ run : LoopRun S l body s, (loop S l line body).run.run s = (run.outcome, run.left) ∧
        (∀ (j : Nat) (round : Round τ), run.rounds[j]? = some round →
          l.Holds round.before (run.start.toInt + j)) ∧
        let count := min (run.limit.toInt - run.start.toInt).toNat S.config.maxIterations
        run.rounds.length ≤ count ∧
          ∀ rows, run.outcome = .ok rows → run.rounds.length = count ∧
            l.Holds run.left (run.start.toInt + count)) ∧
    (∀ (l : Loop) (line : Nat) (body : Pass τ (List Row)) (s : PassState τ), l.limit? = none →
      (∃ e t, (bounds S l).run.run s = (.error e, t) ∧
        (loop S l line body).run.run s = (.error e, t)) ∨
      ∃ run : LoopRun S l body s, (loop S l line body).run.run s = (run.outcome, run.left) ∧
        run.rounds.length ≤ S.config.maxIterations) ∧
    ∀ (view : View) (m : Machine τ),
      let watched := (watchTree S view.tree).run.run ((view.start S m).watched [])
      (runTree S view.tree).run.run (view.start S m) = (watched.1, watched.2.unwatched) ∧
        (view.visits S m).length ≤ view.tree.work S.config.maxIterations := by
  refine ⟨fun l line body s hwhile => ?_, fun l line body s hlimit => ?_, fun view m => ?_⟩
  · have hl : l.isConsistent = true := by simp [Loop.isConsistent, hwhile]
    rcases run_loop hl line body s with haborted | ⟨run, hrun, hle, hall⟩
    · exact .inl haborted
    · obtain ⟨hheld, hbound, hend⟩ := run.runs.of_bounded hwhile
      refine .inr ⟨run, hrun, hheld, Nat.le_min.mpr ⟨hbound, hle⟩, fun rows hrows => ?_⟩
      obtain ⟨goes, hresult⟩ := run.exists_result hrows
      obtain ⟨hstop, hlast⟩ := hend goes hresult
      have hcount : run.rounds.length =
          min (run.limit.toInt - run.start.toInt).toNat S.config.maxIterations := by
        cases goes with
        | false =>
          have := hstop rfl
          omega
        | true =>
          have := hall hresult
          omega
      exact ⟨hcount, hcount ▸ hlast⟩
  · have hl : l.isConsistent = true := by simp [Loop.isConsistent, hlimit]
    rcases run_loop hl line body s with haborted | ⟨run, hrun, hle, -⟩
    · exact .inl haborted
    · exact .inr ⟨run, hrun, hle⟩
  · exact ⟨view.run_watchTree S m, view.length_visits_le S m⟩

/-- A loop up to 2, and one without an end that is stopped after three rounds. -/
theorem loops_run_their_rounds_three :
    let t : Target Unit :=
      { read := fun _ _ => pure none
        setVariable := fun _ _ _ => pure ()
        clearVariables := pure ()
        readRegister := fun _ => pure none
        writeRegister := fun _ _ => pure false }
    let S : Setting Unit := { target := t, config := { maxIterations := 3 } }
    let s : PassState Unit := { machine := { target := () }, memo := {} }
    let twice : Loop := ⟨some "i", none, some (.ofText "2"), none⟩
    let endless : Loop := ⟨some "i", none, none, some (.ofText "1")⟩
    (∃ run : LoopRun S twice (pure []) s, run.outcome = .ok [] ∧ run.rounds.length = 2 ∧
        twice.Holds run.left 2) ∧
      ∃ run : LoopRun S endless (pure []) s, run.rounds.length ≤ 3 := by
  intro t S s twice endless
  obtain ⟨hbounded, hending, -⟩ := loops_run_their_rounds S
  have htwo : (Formula.ofText "2").parsed.body.pureConstant? = some (.number 2) := by
    decide +kernel
  have hone : (Formula.ofText "1").parsed.body.pureConstant? = some (.number 1) := by
    decide +kernel
  have htwice : (bounds S twice).run.run s = (.ok (0, 2), s) :=
    run_bind_of_ok (x := intOr S 0 none) (a := 0) rfl |>.trans
      (run_bind_of_ok (run_intOr_of_pureConstant? htwo 0))
  have hendless : (bounds S endless).run.run s = (.ok (0, 0), s) := rfl
  constructor
  · rcases hbounded twice 1 (pure []) s rfl with ⟨e, t, herror, -⟩ | ⟨run, hrun, -, -, hexact⟩
    · rw [htwice] at herror
      cases herror
    · have hloop : ((loop S twice 1 (pure [])).run.run s).1 = .ok [] := by
        rw [loop_of_isConsistent S rfl, run_bind_of_ok htwice]
        rfl
      have houtcome : run.outcome = .ok [] := by rw [← hloop, hrun]
      have henters := run.enters
      rw [htwice] at henters
      obtain ⟨hstart, hlimit⟩ : 0 = run.start ∧ 2 = run.limit := by
        have h := Except.ok.inj (congrArg Prod.fst henters)
        exact ⟨congrArg Prod.fst h, congrArg Prod.snd h⟩
      rw [← hstart, ← hlimit] at hexact
      exact ⟨run, houtcome, hexact [] houtcome⟩
  · rcases hending endless 1 (pure []) s rfl with ⟨e, t, herror, -⟩ | ⟨run, -, hle⟩
    · rw [hendless] at herror
      cases herror
    · exact ⟨run, hle⟩

end TargetView
